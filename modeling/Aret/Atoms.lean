/-
Atoms and registered window messages.

An atom is `0xC000` with the index of a name in a table, and a table counts how often each name
was added.  A name is stored up to its 255th character, but compared to its end.

* `atoms_lawful` — in a run of careful calls, each call is lawful.
-/
import Aret.Runs

namespace Aret.Atoms

open Runs

/-! ### Names -/

/-- An ASCII string, without its zero. -/
structure Name where
  chars : List ℕ
  ascii : ∀ c ∈ chars, 0 < c ∧ c < 128

def lower (c : ℕ) : ℕ := if 65 ≤ c ∧ c ≤ 90 then c + 32 else c

/-- `u32_atom_ieq`. -/
def ieq : List ℕ → List ℕ → Bool
  | [], [] => true
  | a :: as, b :: bs => lower a = lower b && ieq as bs
  | _, _ => false

/-- The names are equal up to case. -/
def SameName (a b : List ℕ) : Prop := a.map lower = b.map lower

theorem ieq_iff (a b : List ℕ) : ieq a b = true ↔ SameName a b := by
  induction a generalizing b with
  | nil => cases b <;> simp [ieq, SameName]
  | cons x a ih =>
    cases b with
    | nil => simp [ieq, SameName]
    | cons y b =>
      have htail := ih b
      rw [SameName] at htail
      simp [ieq, SameName, htail]

/-- `u32_w2n`, into `cap` bytes. -/
def w2n (s : List ℕ) (cap : ℕ) : List ℕ := (s.take (cap - 1)).map (· % 256)

theorem w2n_eq (n : Name) {cap : ℕ} (h : n.chars.length < cap) : w2n n.chars cap = n.chars := by
  have htake : n.chars.take (cap - 1) = n.chars := List.take_of_length_le (by omega)
  rw [w2n, htake]
  refine (List.map_congr_left fun c hc => ?_).trans (List.map_id _)
  have hlt := (n.ascii c hc).2
  exact Nat.mod_eq_of_lt (by omega)

/-- The argument that names an atom; a pointer below `0x10000` is an integer. -/
inductive Ptr
  | int (v : Fin 0x10000)
  | str (n : Name)

inductive Arg
  | int (v : ℕ)
  | str (s : List ℕ)

/-- What the tables are given: `u32_atom_add_w` and `u32_atom_find_w` narrow a name into 256
bytes. -/
def Ptr.arg (wide : Bool) : Ptr → Arg
  | .int v => .int v
  | .str n => .str (if wide then w2n n.chars 256 else n.chars)

/-! ### A table -/

structure Slot where
  name : List ℕ
  refs : ℕ

abbrev Table := ℕ → Slot

/-- `U32_ATOM_BASE`. -/
def base : ℕ := 0xC000

/-- `U32_ATOM_MAX`. -/
def atomMax : ℕ := 1024

/-- The first index below `n` that a search stops at. -/
def first (n : ℕ) (p : ℕ → Bool) : Option ℕ := (List.range n).find? p

/-- The live slot of a name. -/
def slotOf (t : Table) (s : List ℕ) : Option ℕ :=
  first atomMax fun i => (t i).refs ≠ 0 && ieq (t i).name s

/-- `u32_atom_add`: the atom, the table and `g_last_error`. -/
def atomAdd (t : Table) (err : ℕ) : Arg → ℕ × Table × ℕ
  | .int v => if v = 0 then (0, t, 87) else (v, t, err)
  | .str s =>
    if s = [] then (0, t, 87)
    else match slotOf t s with
      | some i =>
        (base + i, Function.update t i ⟨(t i).name, ((t i).refs + 1) % 2 ^ 32⟩, err)
      | none =>
        match first atomMax fun i => (t i).refs = 0 with
        | some i => (base + i, Function.update t i ⟨s.take 255, 1⟩, err)
        | none => (0, t, 8)

/-- `u32_atom_find`: the atom and `g_last_error`. -/
def atomFind (t : Table) (err : ℕ) : Arg → ℕ × ℕ
  | .int v => (v, err)
  | .str s =>
    if s = [] then (0, 2)
    else match slotOf t s with
      | some i => (base + i, err)
      | none => (0, 2)

/-- `u32_atom_del`. -/
def atomDel (t : Table) (err atom : ℕ) : ℕ × Table × ℕ :=
  if atom < base then (0, t, err)
  else if atomMax ≤ atom - base ∨ (t (atom - base)).refs = 0 then (atom, t, 6)
  else
    let x := t (atom - base)
    (0, Function.update t (atom - base) ⟨if x.refs - 1 = 0 then [] else x.name, x.refs - 1⟩, err)

/-- `u32_atom_name_of`: the text and `g_last_error`. -/
def atomNameOf (t : Table) (err atom : ℕ) : List ℕ × ℕ :=
  if 1 ≤ atom ∧ atom < base then (35 :: (Nat.toDigits 10 atom).map Char.toNat, err)
  else if atom < base ∨ atomMax ≤ atom - base ∨ (t (atom - base)).refs = 0 then ([], 6)
  else ((t (atom - base)).name, err)

inductive Scope
  | loc
  | glob
deriving DecidableEq

/-- What a call returns, and the cells of the buffer that it writes. -/
structure Out where
  ret : ℕ
  cells : List ℕ

/-- `u32_atom_name_a`, and `u32_atom_name_w`, which writes the same numbers as wide units. -/
def atomName (g : Scope) (t : Table) (err atom : ℕ) (buf : Bool) (cch : ℕ) : Out × ℕ :=
  let r := atomNameOf t err atom
  if r.1.length = 0 then (⟨0, if buf ∧ cch ≠ 0 then [0] else []⟩, r.2)
  else if ¬ buf ∨ cch = 0 then (⟨0, []⟩, r.2)
  else if r.1.length ≤ cch - 1 then (⟨r.1.length, r.1 ++ [0]⟩, r.2)
  else (⟨if g = .glob then 0 else cch - 1, r.1.take (cch - 1) ++ [0]⟩, 234)

/-! ### The messages -/

structure Message where
  name : List ℕ
  id : ℕ
  used : Bool

structure Registry where
  slots : ℕ → Message
  next : ℕ

/-- `U32_MAX_RWM`. -/
def maxRwm : ℕ := 128

/-- `u32_reg_win_msg`; `strncmp` compares 128 characters. -/
def regWinMsg (r : Registry) (s : List ℕ) : ℕ × Registry :=
  if s = [] then (0, r)
  else match first maxRwm fun i => (r.slots i).used && (r.slots i).name.take 128 = s.take 128 with
    | some i => ((r.slots i).id, r)
    | none =>
      match first maxRwm fun i => !(r.slots i).used with
      | some i =>
        (r.next, ⟨Function.update r.slots i ⟨s.take 127, r.next, true⟩, (r.next + 1) % 2 ^ 32⟩)
      | none => (0, r)

/-! ### Calls -/

structure State where
  table : Scope → Table
  registry : Registry
  lastError : ℕ

inductive Call
  | add (g : Scope) (wide : Bool) (p : Ptr)
  | find (g : Scope) (wide : Bool) (p : Ptr)
  | delete (g : Scope) (atom : ℕ)
  | getName (g : Scope) (atom : ℕ) (buf : Bool) (cch : ℕ)
  | register (wide : Bool) (n : Option Name)

/-- The string of `RegisterWindowMessage`; the wide one narrows it into 128 bytes. -/
def message (wide : Bool) : Option Name → List ℕ
  | none => []
  | some n => if wide then w2n n.chars 128 else n.chars

def step (s : State) : Call → Out × State
  | .add g wide p =>
    let r := atomAdd (s.table g) s.lastError (p.arg wide)
    (⟨r.1, []⟩, { s with table := Function.update s.table g r.2.1, lastError := r.2.2 })
  | .find g wide p =>
    let r := atomFind (s.table g) s.lastError (p.arg wide)
    (⟨r.1, []⟩, { s with lastError := r.2 })
  | .delete g atom =>
    let r := atomDel (s.table g) s.lastError atom
    (⟨r.1, []⟩, { s with table := Function.update s.table g r.2.1, lastError := r.2.2 })
  | .getName g atom buf cch =>
    let r := atomName g (s.table g) s.lastError atom buf cch
    (r.1, { s with lastError := r.2 })
  | .register wide n =>
    let r := regWinMsg s.registry (message wide n)
    (⟨r.1, []⟩, { s with registry := r.2 })

/-! ### The ledger -/

/-- The live atoms of each table with their first spellings and counts, the integer atoms, and the
ids of the messages. -/
structure Ledger where
  live : Scope → ℕ → Option (List ℕ × ℕ)
  ints : List ℕ
  ids : List ℕ → Option ℕ

/-- An atom is counted once more. -/
def counted (n : List ℕ) : Option (List ℕ × ℕ) → Option (List ℕ × ℕ)
  | none => some (n, 1)
  | some (m, c) => some (m, c + 1)

/-- An atom is counted once less. -/
def uncounted : Option (List ℕ × ℕ) → Option (List ℕ × ℕ)
  | none => none
  | some (m, c) => if c - 1 = 0 then none else some (m, c - 1)

/-- The ledger after a call with its result; 0 is a failure. -/
def Ledger.after (l : Ledger) (c : Call) (o : Out) : Ledger :=
  match c with
  | .add g _ (.str n) =>
    if o.ret = 0 then l
    else { l with
      live := Function.update l.live g
        (Function.update (l.live g) o.ret (counted n.chars (l.live g o.ret))) }
  | .add _ _ (.int v) => { l with ints := v.val :: l.ints }
  | .delete g a =>
    { l with live := Function.update l.live g (Function.update (l.live g) a
        (uncounted (l.live g a))) }
  | .register _ (some n) =>
    if o.ret = 0 then l else { l with ids := Function.update l.ids n.chars (some o.ret) }
  | _ => l

/-- The calls so far leave this state and this ledger. -/
def next (h : State × Ledger) (c : Call) : State × Ledger :=
  ((step h.1 c).2, h.2.after c (step h.1 c).1)

def start : State × Ledger :=
  (⟨fun _ _ => ⟨[], 0⟩, ⟨fun _ => ⟨[], 0, false⟩, base⟩, 0⟩, ⟨fun _ _ => none, [], fun _ => none⟩)

/-- The atom of the name, if it has one. -/
def Ledger.Finds (l : Ledger) (g : Scope) (n : List ℕ) (a : ℕ) : Prop :=
  ∃ m c, l.live g a = some (m, c) ∧ SameName m n

/-- What a call may return. -/
def Ledger.Allows (l : Ledger) : Call → Out → Prop
  | .add g _ (.str n), o =>
    (∀ a, l.Finds g n.chars a → o.ret = a) ∧
      ((¬ ∃ a, l.Finds g n.chars a) → o.ret = 0 ∨ l.live g o.ret = none ∧ o.ret ∉ l.ints)
  | .find g _ (.str n), o =>
    (∀ a, l.Finds g n.chars a → o.ret = a) ∧ ((¬ ∃ a, l.Finds g n.chars a) → o.ret = 0)
  | .add g _ (.int v), o => (o.ret = 0 ∨ o.ret = v) ∧ l.live g o.ret = none
  | .find g _ (.int v), o => (o.ret = 0 ∨ o.ret = v) ∧ l.live g o.ret = none
  | .delete g a, o =>
    (l.live g a ≠ none → o.ret = 0) ∧ (l.live g a = none → base ≤ a → o.ret ≠ 0)
  | .getName g a buf cch, o =>
    (∀ m c, l.live g a = some (m, c) → buf → m.length < cch → o = ⟨m.length, m ++ [0]⟩) ∧
      (∀ m c, l.live g a = some (m, c) → buf → 0 < cch → cch ≤ m.length →
        o.cells = m.take (cch - 1) ++ [0]) ∧
      (l.live g a = none → base ≤ a → o.ret = 0)
  | .register _ n, o =>
    ∀ m, n = some m → (∀ i, l.ids m.chars = some i → o.ret = i) ∧
      (l.ids m.chars = none → o.ret = 0 ∨ ∀ m', l.ids m' ≠ some o.ret)

structure Lawful (h : State × Ledger) (c : Call) : Prop where
  allows : h.2.Allows c (step h.1 c).1
  /-- No integer atom is the atom of a name. -/
  apart : ∀ g a, a ∈ h.2.ints → h.2.live g a = none

/-- No name is cut, no integer is an atom of a name, and no count is full. -/
def Careful (h : State × Ledger) : Call → Prop
  | .add g _ (.str n) => n.chars.length < 256 ∧
      ∀ i < atomMax, SameName (h.1.table g i).name n.chars → (h.1.table g i).refs + 1 < 2 ^ 32
  | .find _ wide (.str n) => wide → n.chars.length < 256
  | .add _ _ (.int v) | .find _ _ (.int v) => v.val < base ∨ base + atomMax ≤ v.val
  | .register _ n => ∀ m, n = some m → m.chars.length < 128
  | _ => True

/-! ### Searches -/

section
variable {n i : ℕ} {p : ℕ → Bool}

theorem first_some (h : first n p = some i) : i < n ∧ p i = true :=
  ⟨List.mem_range.mp (List.mem_of_find?_eq_some h), List.find?_some h⟩

theorem first_none (h : first n p = none) (hi : i < n) : p i = false :=
  Bool.eq_false_iff.mpr (List.find?_eq_none.mp h i (List.mem_range.mpr hi))

end

/-! ### What a table holds -/

/-- The spelling and the count of an atom. -/
def Table.entry (t : Table) (a : ℕ) : Option (List ℕ × ℕ) :=
  if base ≤ a ∧ a < base + atomMax ∧ (t (a - base)).refs ≠ 0 then
    some ((t (a - base)).name, (t (a - base)).refs)
  else none

/-- No two live names are equal, and none is empty. -/
structure Table.Wf (t : Table) : Prop where
  distinct : ∀ i j, i < atomMax → j < atomMax → (t i).refs ≠ 0 → (t j).refs ≠ 0 →
    SameName (t i).name (t j).name → i = j
  named : ∀ i < atomMax, (t i).refs ≠ 0 → (t i).name ≠ []

variable {t : Table} {i err atom : ℕ} {s : List ℕ}

theorem entry_base (hi : i < atomMax) (hrefs : (t i).refs ≠ 0) :
    t.entry (base + i) = some ((t i).name, (t i).refs) := by
  rw [Table.entry, Nat.add_sub_cancel_left, if_pos ⟨Nat.le_add_right .., by omega, hrefs⟩]

theorem entry_some {a c : ℕ} {m : List ℕ} (h : t.entry a = some (m, c)) :
    ∃ i < atomMax, a = base + i ∧ (t i).refs ≠ 0 ∧ (t i).name = m ∧ (t i).refs = c := by
  unfold Table.entry at h
  split_ifs at h with hlive
  obtain ⟨hbase, hmax, hrefs⟩ := hlive
  cases h
  exact ⟨a - base, by omega, by omega, hrefs, rfl, rfl⟩

theorem entry_eq_none (h : ∀ i < atomMax, atom = base + i → (t i).refs = 0) :
    t.entry atom = none := by
  refine if_neg ?_
  rintro ⟨hbase, hmax, hrefs⟩
  exact hrefs (h (atom - base) (by omega) (by omega))

theorem entry_update (hi : i < atomMax) (x : Slot) :
    Table.entry (Function.update t i x) =
      Function.update t.entry (base + i) (if x.refs = 0 then none else some (x.name, x.refs)) := by
  funext a
  by_cases ha : a = base + i
  · subst ha
    rw [Function.update_self, Table.entry, Nat.add_sub_cancel_left, Function.update_self]
    by_cases hx : x.refs = 0
    · rw [if_neg (fun h => h.2.2 hx), if_pos hx]
    · rw [if_pos ⟨Nat.le_add_right .., by omega, hx⟩, if_neg hx]
  · rw [Function.update_of_ne ha, Table.entry, Table.entry]
    by_cases hbase : base ≤ a
    · rw [Function.update_of_ne (show a - base ≠ i by omega)]
    · rw [if_neg (fun h => hbase h.1), if_neg (fun h => hbase h.1)]

theorem wf_update (ht : t.Wf) {x : Slot} (hnamed : x.refs ≠ 0 → x.name ≠ [])
    (hnew : x.refs ≠ 0 → ∀ j < atomMax, j ≠ i → (t j).refs ≠ 0 → ¬ SameName (t j).name x.name) :
    Table.Wf (Function.update t i x) := by
  constructor
  · intro j k hj hk hjrefs hkrefs hsame
    by_cases hji : j = i <;> by_cases hki : k = i
    · exact hji.trans hki.symm
    · subst hji
      rw [Function.update_self] at hjrefs hsame
      rw [Function.update_of_ne hki] at hkrefs hsame
      exact absurd hsame.symm (hnew hjrefs k hk hki hkrefs)
    · subst hki
      rw [Function.update_self] at hkrefs hsame
      rw [Function.update_of_ne hji] at hjrefs hsame
      exact absurd hsame (hnew hkrefs j hj hji hjrefs)
    · rw [Function.update_of_ne hji] at hjrefs hsame
      rw [Function.update_of_ne hki] at hkrefs hsame
      exact ht.distinct j k hj hk hjrefs hkrefs hsame
  · intro j hj hjrefs
    by_cases hji : j = i
    · subst hji
      rw [Function.update_self] at hjrefs ⊢
      exact hnamed hjrefs
    · rw [Function.update_of_ne hji] at hjrefs ⊢
      exact ht.named j hj hjrefs

/-- Slot `i` is live and has the name. -/
def Table.Has (t : Table) (s : List ℕ) (i : ℕ) : Prop :=
  i < atomMax ∧ (t i).refs ≠ 0 ∧ SameName (t i).name s

theorem slotOf_some (h : slotOf t s = some i) : t.Has s i := by
  obtain ⟨hi, hp⟩ := first_some h
  rw [Bool.and_eq_true, decide_eq_true_iff, ieq_iff] at hp
  exact ⟨hi, hp.1, hp.2⟩

theorem slotOf_none (h : slotOf t s = none) : ¬ t.Has s i := by
  rintro ⟨hi, hrefs, hsame⟩
  have hp := first_none h hi
  rw [(ieq_iff ..).mpr hsame, Bool.and_true, decide_eq_false_iff_not] at hp
  exact hp hrefs

theorem Table.Has.unique (ht : t.Wf) {j : ℕ} (h : t.Has s i) (h' : t.Has s j) : i = j :=
  ht.distinct i j h.1 h'.1 h.2.1 h'.2.1 (h.2.2.trans h'.2.2.symm)

theorem not_has_nil (ht : t.Wf) : ¬ t.Has [] i := by
  rintro ⟨hi, hrefs, hsame⟩
  exact ht.named i hi hrefs (List.map_eq_nil_iff.mp hsame)

/-- The live slots of a name are the slots of its atoms. -/
theorem has_iff {a : ℕ} : (∃ m c, t.entry a = some (m, c) ∧ SameName m s) ↔
    ∃ i, a = base + i ∧ t.Has s i := by
  constructor
  · rintro ⟨m, c, hentry, hsame⟩
    obtain ⟨i, hi, ha, hrefs, rfl, -⟩ := entry_some hentry
    exact ⟨i, ha, hi, hrefs, hsame⟩
  · rintro ⟨i, rfl, hi, hrefs, hsame⟩
    exact ⟨_, _, entry_base hi hrefs, hsame⟩

/-! ### One call on a table -/

/-- A name that is live is counted; else the name takes a free slot, or there is none. -/
theorem atomAdd_cases (err : ℕ) (ht : t.Wf) :
    (∃ i, t.Has s i ∧ atomAdd t err (.str s) =
      (base + i, Function.update t i ⟨(t i).name, ((t i).refs + 1) % 2 ^ 32⟩, err)) ∨
    (¬ (∃ i, t.Has s i) ∧ s ≠ [] ∧ ∃ i < atomMax, (t i).refs = 0 ∧
      atomAdd t err (.str s) = (base + i, Function.update t i ⟨s.take 255, 1⟩, err)) ∨
    (¬ (∃ i, t.Has s i) ∧ ∃ e, atomAdd t err (.str s) = (0, t, e)) := by
  by_cases hs : s = []
  · subst hs
    exact .inr (.inr ⟨fun ⟨i, h⟩ => not_has_nil ht h, _, rfl⟩)
  rw [atomAdd, if_neg hs]
  cases hslot : slotOf t s with
  | some i => exact .inl ⟨i, slotOf_some hslot, rfl⟩
  | none =>
    have hno : ¬ ∃ i, t.Has s i := fun ⟨i, h⟩ => slotOf_none hslot h
    cases hfree : first atomMax fun i => (t i).refs = 0 with
    | some i =>
      obtain ⟨hi, hrefs⟩ := first_some hfree
      exact .inr (.inl ⟨hno, hs, i, hi, of_decide_eq_true hrefs, rfl⟩)
    | none => exact .inr (.inr ⟨hno, _, rfl⟩)

theorem atomFind_cases (err : ℕ) (ht : t.Wf) :
    (∃ i, t.Has s i ∧ (atomFind t err (.str s)).1 = base + i) ∨
      (¬ (∃ i, t.Has s i) ∧ (atomFind t err (.str s)).1 = 0) := by
  by_cases hs : s = []
  · subst hs
    exact .inr ⟨fun ⟨i, h⟩ => not_has_nil ht h, rfl⟩
  rw [atomFind, if_neg hs]
  cases hslot : slotOf t s with
  | some i => exact .inl ⟨i, slotOf_some hslot, rfl⟩
  | none => exact .inr ⟨fun ⟨i, h⟩ => slotOf_none hslot h, rfl⟩

/-- A deleted atom is counted once less. -/
theorem atomDel_spec (err atom : ℕ) (ht : t.Wf) :
    (atomDel t err atom).2.1.Wf ∧
      (atomDel t err atom).2.1.entry =
        Function.update t.entry atom (uncounted (t.entry atom)) ∧
      (t.entry atom ≠ none → (atomDel t err atom).1 = 0) ∧
      (t.entry atom = none → base ≤ atom → (atomDel t err atom).1 ≠ 0) := by
  unfold atomDel
  split_ifs with hbase hdead
  · have hnone : t.entry atom = none := entry_eq_none fun i hi ha => by omega
    refine ⟨ht, ?_, fun _ => rfl, fun _ hle => absurd hle (by omega)⟩
    rw [hnone, uncounted, ← hnone, Function.update_eq_self]
  · have hnone : t.entry atom = none := by
      refine entry_eq_none fun i hi ha => ?_
      subst ha
      rw [Nat.add_sub_cancel_left] at hdead
      exact hdead.resolve_left (by omega)
    refine ⟨ht, ?_, fun hlive => absurd hnone hlive, fun _ hle => ?_⟩
    · rw [hnone, uncounted, ← hnone, Function.update_eq_self]
    · rw [base] at hle
      dsimp only
      omega
  · obtain ⟨i, hi, rfl⟩ : ∃ i < atomMax, atom = base + i := ⟨atom - base, by omega, by omega⟩
    rw [Nat.add_sub_cancel_left] at hdead ⊢
    have hrefs : (t i).refs ≠ 0 := fun h => hdead (.inr h)
    have hentry := entry_base hi hrefs
    refine ⟨wf_update ht (fun hleft => ?_) (fun hleft j hj hji hjrefs hsame => ?_), ?_,
      fun _ => rfl, fun hnone => ?_⟩
    · dsimp only at hleft ⊢
      rw [if_neg hleft]
      exact ht.named i hi hrefs
    · dsimp only at hleft hsame
      rw [if_neg hleft] at hsame
      exact hji (ht.distinct j i hj hi hjrefs hrefs hsame)
    · rw [entry_update hi, hentry, uncounted]
      by_cases hleft : (t i).refs - 1 = 0
      · simp only [hleft, if_true]
      · simp only [hleft, if_false]
    · rw [hentry] at hnone
      cases hnone

theorem atomName_live {g : Scope} {buf : Bool} {c cch : ℕ} {m : List ℕ}
    (h : t.entry atom = some (m, c)) (hbuf : buf) (hcch : 0 < cch) :
    atomName g t err atom buf cch =
      if m.length < cch then (⟨m.length, m ++ [0]⟩, err)
      else (⟨if g = .glob then 0 else cch - 1, m.take (cch - 1) ++ [0]⟩, 234) := by
  obtain ⟨i, hi, rfl, hrefs, rfl, -⟩ := entry_some h
  have hof : atomNameOf t err (base + i) = ((t i).name, err) := by
    rw [atomNameOf, if_neg (by omega), Nat.add_sub_cancel_left, if_neg (by omega)]
  rw [atomName, hof]
  dsimp only
  by_cases hempty : (t i).name.length = 0
  · rw [if_pos hempty, if_pos ⟨hbuf, by omega⟩, if_pos (by omega),
      List.length_eq_zero_iff.mp hempty, List.length_nil, List.nil_append]
  · rw [if_neg hempty, if_neg (fun h => h.elim (fun h => h hbuf) (by omega))]
    by_cases hfits : (t i).name.length < cch
    · rw [if_pos (by omega), if_pos hfits]
    · rw [if_neg (by omega), if_neg hfits]

theorem atomName_dead {g : Scope} {buf : Bool} {cch : ℕ} (h : t.entry atom = none)
    (hbase : base ≤ atom) : (atomName g t err atom buf cch).1.ret = 0 := by
  have hof : atomNameOf t err atom = ([], 6) := by
    rw [atomNameOf, if_neg (by omega), if_pos]
    by_contra hlive
    rw [not_or, not_or] at hlive
    obtain ⟨-, hmax, hrefs⟩ := hlive
    rw [Table.entry, if_pos ⟨hbase, by omega, hrefs⟩] at h
    cases h
  rw [atomName, hof]
  rfl

/-! ### The registry -/

/-- The first `k` slots are taken, by names that are not cut, and their ids are in order. -/
structure Registry.Wf (r : Registry) (k : ℕ) : Prop where
  le : k ≤ maxRwm
  next : r.next = base + k
  used : ∀ j < maxRwm, (r.slots j).used = true ↔ j < k
  slot : ∀ j < k, (r.slots j).id = base + j ∧ (r.slots j).name ≠ [] ∧ (r.slots j).name.length < 128

variable {r : Registry} {k : ℕ}

/-- A name that is registered has its id; else it takes the next slot, or there is none. -/
theorem regWinMsg_cases (hr : r.Wf k) (hs : s.length < 128) :
    (∃ j < k, (r.slots j).name = s ∧ regWinMsg r s = (base + j, r)) ∨
    (¬ (∃ j < k, (r.slots j).name = s) ∧ s ≠ [] ∧ k < maxRwm ∧ regWinMsg r s =
      (base + k, ⟨Function.update r.slots k ⟨s, base + k, true⟩, base + (k + 1)⟩)) ∨
    (¬ (∃ j < k, (r.slots j).name = s) ∧ regWinMsg r s = (0, r)) := by
  have htake : ∀ l : List ℕ, l.length < 128 → l.take 128 = l :=
    fun l hl => List.take_of_length_le (by omega)
  by_cases hnil : s = []
  · subst hnil
    exact .inr (.inr ⟨fun ⟨j, hj, hname⟩ => (hr.slot j hj).2.1 hname, rfl⟩)
  rw [regWinMsg, if_neg hnil]
  cases hfound :
      first maxRwm fun i => (r.slots i).used && (r.slots i).name.take 128 = s.take 128 with
  | some j =>
    obtain ⟨hj, hp⟩ := first_some hfound
    rw [Bool.and_eq_true, decide_eq_true_iff] at hp
    have hjk := (hr.used j hj).mp hp.1
    have hslot := hr.slot j hjk
    rw [htake _ hslot.2.2, htake _ hs] at hp
    refine .inl ⟨j, hjk, hp.2, ?_⟩
    dsimp only
    rw [hslot.1]
  | none =>
    have hno : ¬ ∃ j < k, (r.slots j).name = s := by
      rintro ⟨j, hj, rfl⟩
      have hle := hr.le
      have hp := first_none hfound (show j < maxRwm by omega)
      rw [(hr.used j (by omega)).mpr hj, Bool.true_and, decide_eq_false_iff_not] at hp
      exact hp rfl
    cases hfree : first maxRwm fun i => !(r.slots i).used with
    | some j =>
      obtain ⟨hj, hunused⟩ := first_some hfree
      rw [Bool.not_eq_true', Bool.eq_false_iff] at hunused
      have hjk : ¬ j < k := fun h => hunused ((hr.used j hj).mpr h)
      obtain rfl : j = k := by
        by_contra hne
        -- The search would stop at slot `k`, which is free.
        have hk := (List.find?_range_eq_some.mp hfree).2.2 k (by omega)
        rw [Bool.not_not] at hk
        exact absurd ((hr.used k (by omega)).mp hk) (Nat.lt_irrefl k)
      refine .inr (.inl ⟨hno, hnil, hj, ?_⟩)
      have hcut : s.take 127 = s := List.take_of_length_le (by omega)
      have hwrap : (base + j + 1) % 2 ^ 32 = base + (j + 1) := by
        rw [maxRwm] at hj
        rw [base]
        omega
      dsimp only
      rw [hcut, hr.next, hwrap]
    | none => exact .inr (.inr ⟨hno, rfl⟩)

theorem registry_wf_succ (hr : r.Wf k) (hnil : s ≠ []) (hs : s.length < 128) (hk : k < maxRwm) :
    Registry.Wf ⟨Function.update r.slots k ⟨s, base + k, true⟩, base + (k + 1)⟩ (k + 1) := by
  refine ⟨hk, rfl, fun j hj => ?_, fun j hj => ?_⟩
  · by_cases hjk : j = k
    · subst hjk
      simp only [Function.update_self, Nat.lt_succ_self]
    · simp only [Function.update_of_ne hjk, hr.used j hj]
      omega
  · by_cases hjk : j = k
    · subst hjk
      dsimp only
      rw [Function.update_self]
      exact ⟨rfl, hnil, hs⟩
    · dsimp only
      rw [Function.update_of_ne hjk]
      exact hr.slot j (by omega)

/-! ### What holds in every run of careful calls -/

/-- The ledger says what the tables and the registry hold, and no integer atom is the atom of a
slot. -/
structure Inv (h : State × Ledger) : Prop where
  wf : ∀ g, (h.1.table g).Wf
  live : ∀ g, h.2.live g = (h.1.table g).entry
  ints : ∀ a ∈ h.2.ints, a < base ∨ base + atomMax ≤ a
  registry : ∃ k, h.1.registry.Wf k ∧ ∀ n a, h.2.ids n = some a ↔
    ∃ j < k, (h.1.registry.slots j).name = n ∧ base + j = a

theorem inv_start : Inv start := by
  refine ⟨fun g => ⟨fun i j _ _ hrefs => absurd rfl hrefs, fun i _ hrefs => absurd rfl hrefs⟩,
    fun g => ?_, fun a ha => absurd ha List.not_mem_nil, 0, ⟨Nat.zero_le _, rfl, fun j _ => ?_,
      fun j hj => absurd hj (Nat.not_lt_zero j)⟩, fun n a => ?_⟩
  · funext a
    exact (entry_eq_none fun i _ _ => rfl).symm
  · exact ⟨fun h => (Bool.false_ne_true h).elim, fun h => absurd h (Nat.not_lt_zero j)⟩
  · exact ⟨(fun h => nomatch h), fun ⟨j, hj, _⟩ => absurd hj (Nat.not_lt_zero j)⟩

variable {h : State × Ledger} {g : Scope} {a : ℕ}

theorem Inv.finds_iff (hinv : Inv h) :
    h.2.Finds g s a ↔ ∃ i, a = base + i ∧ (h.1.table g).Has s i := by
  rw [Ledger.Finds, hinv.live, has_iff]

theorem Inv.not_finds (hinv : Inv h) (hno : ¬ ∃ i, (h.1.table g).Has s i) :
    ¬ ∃ a, h.2.Finds g s a := by
  rintro ⟨a, hfinds⟩
  obtain ⟨i, -, hhas⟩ := hinv.finds_iff.mp hfinds
  exact hno ⟨i, hhas⟩

theorem Inv.live_eq_none (hinv : Inv h) (ha : a < base ∨ base + atomMax ≤ a) :
    h.2.live g a = none := by
  rw [hinv.live]
  exact entry_eq_none fun i hi hai => by omega

theorem Inv.set_error (hinv : Inv h) (e : ℕ) : Inv ({ h.1 with lastError := e }, h.2) :=
  ⟨hinv.wf, hinv.live, hinv.ints, hinv.registry⟩

theorem Inv.set_table (hinv : Inv h) (e : ℕ) {f : ℕ → Option (List ℕ × ℕ)} (ht : t.Wf)
    (hf : f = t.entry) :
    Inv ({ h.1 with table := Function.update h.1.table g t, lastError := e },
      { h.2 with live := Function.update h.2.live g f }) := by
  refine ⟨fun g' => ?_, fun g' => ?_, hinv.ints, hinv.registry⟩
  · by_cases hg : g' = g
    · subst hg
      simpa only [Function.update_self] using ht
    · simpa only [Function.update_of_ne hg] using hinv.wf g'
  · by_cases hg : g' = g
    · subst hg
      simp only [Function.update_self, hf]
    · simp only [Function.update_of_ne hg, hinv.live]

theorem base_add_ne_zero : base + i ≠ 0 := by
  rw [base]
  omega

theorem arg_str (n : Name) {wide : Bool} (hn : wide → n.chars.length < 256) :
    (Ptr.str n).arg wide = .str n.chars := by
  cases wide with
  | false => rfl
  | true => rw [Ptr.arg, if_pos rfl, w2n_eq n (hn rfl)]

theorem add_str (hinv : Inv h) {wide : Bool} {n : Name} (hn : n.chars.length < 256)
    (hcount : ∀ i < atomMax, SameName (h.1.table g i).name n.chars →
      (h.1.table g i).refs + 1 < 2 ^ 32) :
    h.2.Allows (.add g wide (.str n)) (step h.1 (.add g wide (.str n))).1 ∧
      Inv (next h (.add g wide (.str n))) := by
  rw [next, step, arg_str n fun _ => hn, Ledger.after, Ledger.Allows]
  dsimp only
  rcases atomAdd_cases h.1.lastError (hinv.wf g) (s := n.chars) with
    ⟨i, hhas, hadd⟩ | ⟨hno, hnil, i, hi, hfree, hadd⟩ | ⟨hno, e, hadd⟩
  · -- the name is live
    rw [hadd]
    dsimp only
    obtain ⟨hi, hrefs, hsame⟩ := hhas
    have hwrap : ((h.1.table g i).refs + 1) % 2 ^ 32 = (h.1.table g i).refs + 1 :=
      Nat.mod_eq_of_lt (hcount i hi hsame)
    refine ⟨⟨fun a hfinds => ?_, fun hno => ?_⟩, ?_⟩
    · obtain ⟨j, rfl, hhas⟩ := hinv.finds_iff.mp hfinds
      rw [hhas.unique (hinv.wf g) ⟨hi, hrefs, hsame⟩]
    · exact absurd ⟨_, hinv.finds_iff.mpr ⟨i, rfl, hi, hrefs, hsame⟩⟩ hno
    · rw [if_neg base_add_ne_zero, hwrap]
      refine hinv.set_table h.1.lastError
        (wf_update (hinv.wf g) (fun _ => (hinv.wf g).named i hi hrefs) ?_) ?_
      · intro _ j hj hji hjrefs hjsame
        exact hji ((hinv.wf g).distinct j i hj hi hjrefs hrefs hjsame)
      · rw [entry_update hi, hinv.live, entry_base hi hrefs, counted,
          if_neg (Nat.succ_ne_zero _)]
  · -- the name takes a free slot
    rw [hadd]
    dsimp only
    have hcut : n.chars.take 255 = n.chars := List.take_of_length_le (by omega)
    have hdead : (h.1.table g).entry (base + i) = none := by
      refine entry_eq_none fun j _ hji => ?_
      rwa [show j = i by omega]
    refine ⟨⟨fun a hfinds => ?_, fun _ => .inr ⟨?_, fun hmem => ?_⟩⟩, ?_⟩
    · exact absurd ⟨a, hfinds⟩ (hinv.not_finds hno)
    · rw [hinv.live, hdead]
    · have hrange := hinv.ints _ hmem
      omega
    · rw [if_neg base_add_ne_zero, hcut]
      refine hinv.set_table h.1.lastError (wf_update (hinv.wf g) (fun _ => hnil) ?_) ?_
      · exact fun _ j hj _ hjrefs hjsame => hno ⟨j, hj, hjrefs, hjsame⟩
      · rw [entry_update hi, hinv.live, hdead, counted, if_neg Nat.one_ne_zero]
  · -- there is no slot
    rw [hadd]
    dsimp only
    rw [if_pos rfl, Function.update_eq_self]
    refine ⟨⟨fun a hfinds => ?_, fun _ => .inl rfl⟩, hinv.set_error e⟩
    exact absurd ⟨a, hfinds⟩ (hinv.not_finds hno)

theorem find_str (hinv : Inv h) {wide : Bool} {n : Name} (hn : wide → n.chars.length < 256) :
    h.2.Allows (.find g wide (.str n)) (step h.1 (.find g wide (.str n))).1 := by
  rw [step, arg_str n hn, Ledger.Allows]
  dsimp only
  rcases atomFind_cases h.1.lastError (hinv.wf g) (s := n.chars) with
    ⟨i, hhas, hfind⟩ | ⟨hno, hfind⟩
  · rw [hfind]
    refine ⟨fun a hfinds => ?_, fun hno => ?_⟩
    · obtain ⟨j, rfl, hhas'⟩ := hinv.finds_iff.mp hfinds
      rw [hhas'.unique (hinv.wf g) hhas]
    · exact absurd ⟨_, hinv.finds_iff.mpr ⟨i, rfl, hhas⟩⟩ hno
  · rw [hfind]
    exact ⟨fun a hfinds => absurd ⟨a, hfinds⟩ (hinv.not_finds hno), fun _ => rfl⟩

theorem get_name (hinv : Inv h) (buf : Bool) (cch : ℕ) :
    h.2.Allows (.getName g a buf cch) (step h.1 (.getName g a buf cch)).1 := by
  rw [step, Ledger.Allows, hinv.live]
  dsimp only
  refine ⟨fun m c hlive hbuf hlt => ?_, fun m c hlive hbuf hpos hle => ?_, atomName_dead⟩
  · rw [atomName_live hlive hbuf (by omega), if_pos hlt]
  · rw [atomName_live hlive hbuf hpos, if_neg (by omega)]

theorem message_eq (n : Name) (wide : Bool) (hn : n.chars.length < 128) :
    message wide (some n) = n.chars := by
  cases wide with
  | false => rfl
  | true => rw [message, if_pos rfl, w2n_eq n hn]

theorem register_some (hinv : Inv h) {wide : Bool} {n : Name} (hn : n.chars.length < 128) :
    h.2.Allows (.register wide (some n)) (step h.1 (.register wide (some n))).1 ∧
      Inv (next h (.register wide (some n))) := by
  rw [next, step, message_eq n wide hn, Ledger.after, Ledger.Allows]
  dsimp only
  obtain ⟨k, hr, hids⟩ := hinv.registry
  have hknown : ∀ j < k, (h.1.registry.slots j).name = n.chars →
      h.2.ids n.chars = some (base + j) := fun j hj hname => (hids _ _).mpr ⟨j, hj, hname, rfl⟩
  have hunknown : ¬ (∃ j < k, (h.1.registry.slots j).name = n.chars) →
      h.2.ids n.chars = none := by
    intro hno
    cases hid : h.2.ids n.chars with
    | none => rfl
    | some i =>
      obtain ⟨j, hj, hname, -⟩ := (hids _ _).mp hid
      exact absurd ⟨j, hj, hname⟩ hno
  rcases regWinMsg_cases hr hn with ⟨j, hj, hname, hreg⟩ | ⟨hno, hnil, hk, hreg⟩ | ⟨hno, hreg⟩
  · -- the name has an id
    rw [hreg]
    dsimp only
    rw [if_neg base_add_ne_zero, ← hknown j hj hname, Function.update_eq_self]
    refine ⟨fun m hm => ?_, hinv⟩
    obtain rfl := Option.some.inj hm
    rw [hknown j hj hname]
    exact ⟨fun i hi => Option.some.inj hi, fun hnone => nomatch hnone⟩
  · -- the name takes the next slot
    rw [hreg]
    dsimp only
    rw [if_neg base_add_ne_zero]
    refine ⟨fun m hm => ?_, hinv.wf, hinv.live, hinv.ints, k + 1,
      registry_wf_succ hr hnil hn hk, fun m i => ?_⟩
    · obtain rfl := Option.some.inj hm
      rw [hunknown hno]
      refine ⟨fun i hi => (nomatch hi), fun _ => .inr fun m' hid => ?_⟩
      obtain ⟨j, hj, -, heq⟩ := (hids _ _).mp hid
      omega
    · dsimp only
      by_cases hm : m = n.chars
      · subst hm
        rw [Function.update_self, Option.some.injEq]
        constructor
        · rintro rfl
          exact ⟨k, Nat.lt_succ_self k, by rw [Function.update_self], rfl⟩
        · rintro ⟨j, hj, hname, rfl⟩
          by_cases hjk : j = k
          · rw [hjk]
          · rw [Function.update_of_ne hjk] at hname
            exact absurd ⟨j, by omega, hname⟩ hno
      · rw [Function.update_of_ne hm, hids]
        constructor
        · rintro ⟨j, hj, hname, hi⟩
          refine ⟨j, by omega, ?_, hi⟩
          rwa [Function.update_of_ne (by omega)]
        · rintro ⟨j, hj, hname, hi⟩
          by_cases hjk : j = k
          · subst hjk
            rw [Function.update_self] at hname
            exact absurd hname.symm hm
          · rw [Function.update_of_ne hjk] at hname
            exact ⟨j, by omega, hname, hi⟩
  · -- there is no slot
    rw [hreg]
    dsimp only
    rw [if_pos rfl]
    refine ⟨fun m hm => ?_, hinv⟩
    obtain rfl := Option.some.inj hm
    rw [hunknown hno]
    exact ⟨fun i hi => (nomatch hi), fun _ => .inl rfl⟩

/-- A careful call is allowed, and keeps the invariant. -/
theorem careful_step (hinv : Inv h) {c : Call} (hc : Careful h c) :
    h.2.Allows c (step h.1 c).1 ∧ Inv (next h c) := by
  cases c with
  | add g wide p =>
    cases p with
    | str n => exact add_str hinv hc.1 hc.2
    | int v =>
      have hadd : ∃ e, atomAdd (h.1.table g) h.1.lastError (.int v) = (v.val, h.1.table g, e) := by
        rw [atomAdd]
        split_ifs with hzero
        · exact ⟨87, by rw [hzero]⟩
        · exact ⟨_, rfl⟩
      obtain ⟨e, hadd⟩ := hadd
      rw [next, step, Ptr.arg, hadd, Ledger.Allows, Ledger.after]
      dsimp only
      rw [Function.update_eq_self]
      refine ⟨⟨.inr rfl, hinv.live_eq_none hc⟩, hinv.wf, hinv.live, fun a ha => ?_, hinv.registry⟩
      rcases List.mem_cons.mp ha with rfl | hmem
      · exact hc
      · exact hinv.ints a hmem
  | find g wide p =>
    refine ⟨?_, ?_⟩
    · cases p with
      | str n => exact find_str hinv hc
      | int v => exact ⟨.inr rfl, hinv.live_eq_none hc⟩
    · cases p <;> exact hinv.set_error _
  | delete g a =>
    obtain ⟨hwf, hentry, hlive, hdead⟩ := atomDel_spec h.1.lastError a (hinv.wf g)
    refine ⟨?_, hinv.set_table _ hwf ?_⟩
    · rw [Ledger.Allows, hinv.live]
      exact ⟨hlive, hdead⟩
    · rw [hentry, hinv.live]
  | getName g a buf cch => exact ⟨get_name hinv buf cch, hinv.set_error _⟩
  | register wide n =>
    cases n with
    | some n => exact register_some hinv (hc n rfl)
    | none => exact ⟨fun m hm => (nomatch hm), hinv⟩

/-- In a run of careful calls, each call is lawful. -/
theorem atoms_lawful (cs : List Call) (h : Each next start Careful cs) :
    Each next start Lawful cs := by
  intro pre c post hcs
  have hinv : Inv (run next start pre) :=
    h.inv inv_start (fun _ _ hinv hc => (careful_step hinv hc).2) pre (c :: post) hcs
  refine ⟨(careful_step hinv (h pre c post hcs)).1, fun g a ha => ?_⟩
  exact hinv.live_eq_none (hinv.ints a ha)

/-- A name that is added, found, read back and deleted, and a message. -/
def sample : List Call :=
  [.add .loc false (.str ⟨[65], by decide⟩), .find .loc true (.str ⟨[97], by decide⟩),
    .getName .loc base true 8, .delete .loc base, .register true (some ⟨[77], by decide⟩)]

theorem atoms_lawful_sample : Each next start Lawful sample := by
  have hcount : 0 + 1 < 2 ^ 32 := by decide
  refine atoms_lawful sample (each_cons.mpr ⟨⟨by decide, fun i _ _ => hcount⟩,
    each_cons.mpr ⟨fun _ => by decide, each_cons.mpr ⟨trivial, each_cons.mpr ⟨trivial,
      each_cons.mpr ⟨?_, each_nil⟩⟩⟩⟩⟩)
  rintro n ⟨⟩
  decide

/-- A name of 256 characters. -/
def long : Name := ⟨List.replicate 256 97, fun c hc => by rw [List.eq_of_mem_replicate hc]; decide⟩

/-- A name that is cut gets a second atom. -/
theorem not_lawful : ¬ ∀ cs, Each next start Lawful cs := by
  intro h
  have hlaw := (h [.add .loc false (.str long), .add .loc false (.str long)]
    [.add .loc false (.str long)] _ [] rfl).allows.1 base ⟨long.chars, 1, ?_, rfl⟩
  · exact absurd hlaw (by decide +kernel)
  · decide +kernel

end Aret.Atoms
