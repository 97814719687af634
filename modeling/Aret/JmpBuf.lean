/-
The table of host jump buffers, which every `setjmp` of a program, of its SEH
frames and of its GNU frames shares.

* `longjmp_reaches_iff` — in exactly the runs in which no `setjmp` takes the first
  slot from a live one, a `longjmp` reaches the last `setjmp` of its key.
-/
import Aret.Runs
import Mathlib.Logic.Function.Basic
import Mathlib.Tactic

namespace Aret.JmpBuf

/-- `N`. -/
def capacity : ℕ := 512

/-- The keys and buffers of `aret_jmpbuf_for`; a buffer holds the context that the `i`-th `setjmp` of
the run has saved. -/
structure Table where
  keys : ℕ → ℕ
  bufs : ℕ → Option ℕ
  n : ℕ

namespace Table

variable (t : Table) (key : ℕ)

/-- `aret_jmpbuf_for`: the slot of a key, and the table with the key in it. -/
def jmpbufFor : ℕ × Table :=
  match (List.range t.n).find? fun i => t.keys i = key with
  | some i => (i, t)
  | none =>
    if t.n < capacity then
      (t.n, { t with keys := Function.update t.keys t.n key, n := t.n + 1 })
    -- extreme nesting: reuse rather than overflow
    else (0, { t with keys := Function.update t.keys 0 key })

def place : ℕ := (t.jmpbufFor key).1

def enter : Table := (t.jmpbufFor key).2

/-- `setjmp` saves a context in the slot of its key. -/
def save (i : ℕ) : Table :=
  { t.enter key with bufs := Function.update (t.enter key).bufs (t.place key) (some i) }

def Later : Prop := ∃ i, 0 < i ∧ i < t.n ∧ t.keys i = key

def Absent : Prop := ∀ i < t.n, t.keys i ≠ key

end Table

/-- The table, and the history of the run: the last `setjmp` of each key, those whose frames are
live, and how many there were. -/
structure State where
  table : Table
  last : ℕ → Option ℕ
  live : List ℕ
  count : ℕ

/-- A `setjmp` or a `longjmp`, or the end of the frame of the `i`-th `setjmp`. -/
inductive Event
  | setjmp (key : ℕ)
  | longjmp (key : ℕ)
  | ends (i : ℕ)

def start : State := ⟨⟨fun _ => 0, fun _ => none, 0⟩, fun _ => none, [], 0⟩

def step (s : State) : Event → State
  | .setjmp key =>
    { table := s.table.save key s.count
      last := Function.update s.last key (some s.count)
      live := s.count :: s.live
      count := s.count + 1 }
  | .longjmp key => { s with table := s.table.enter key }
  | .ends i => { s with live := s.live.filter (· ≠ i) }

/-- The context that `aret_longjmp_do` goes to. -/
def State.target (s : State) (key : ℕ) : Option ℕ := s.table.bufs (s.table.place key)

/-- A `longjmp` reaches the last `setjmp` of its key as long as the frame of that is live, and two
keys with live frames have two buffers. -/
structure Proper (s : State) : Prop where
  reaches : ∀ key i, s.last key = some i → i ∈ s.live → s.target key = some i
  apart : ∀ key key' i j, s.last key = some i → i ∈ s.live → s.last key' = some j → j ∈ s.live →
    key ≠ key' → s.table.place key ≠ s.table.place key'

/-- A `setjmp` finds a free slot or a later one of its key, or else the context in the first slot is
not that of a live `setjmp` of another key. -/
def Fits (s : State) : Event → Prop
  | .setjmp key =>
    s.table.n < capacity ∨ s.table.Later key ∨
      ∀ key' i, key' ≠ key → s.table.bufs 0 = some i → s.last key' = some i → i ∉ s.live
  | _ => True

/-! ### The table -/

namespace Table

variable {t : Table} {key : ℕ}

def Distinct (t : Table) : Prop := ∀ i j, i < t.n → j < t.n → t.keys i = t.keys j → i = j

theorem jmpbufFor_cases (t : Table) (key : ℕ) :
    (∃ i, i < t.n ∧ t.keys i = key ∧ t.jmpbufFor key = (i, t)) ∨
      (t.Absent key ∧ t.n < capacity ∧ t.jmpbufFor key =
        (t.n, { t with keys := Function.update t.keys t.n key, n := t.n + 1 })) ∨
      (t.Absent key ∧ capacity ≤ t.n ∧
        t.jmpbufFor key = (0, { t with keys := Function.update t.keys 0 key })) := by
  rw [jmpbufFor]
  cases hfind : (List.range t.n).find? fun i => t.keys i = key with
  | some i =>
    have hi := List.mem_range.mp (List.mem_of_find?_eq_some hfind)
    have hkey := List.find?_some hfind
    exact Or.inl ⟨i, hi, of_decide_eq_true hkey, rfl⟩
  | none =>
    have habs : t.Absent key := by
      intro i hi hkey
      have hno := List.find?_eq_none.mp hfind i (List.mem_range.mpr hi)
      exact hno (decide_eq_true hkey)
    by_cases hn : t.n < capacity
    · exact Or.inr (Or.inl ⟨habs, hn, if_pos hn⟩)
    · exact Or.inr (Or.inr ⟨habs, Nat.le_of_not_lt hn, if_neg hn⟩)

@[simp] theorem bufs_enter : (t.enter key).bufs = t.bufs := by
  rcases jmpbufFor_cases t key with ⟨i, _, _, h⟩ | ⟨_, _, h⟩ | ⟨_, _, h⟩ <;>
    rw [enter, h]

theorem le_enter : t.n ≤ (t.enter key).n := by
  rcases jmpbufFor_cases t key with ⟨i, _, _, h⟩ | ⟨_, _, h⟩ | ⟨_, _, h⟩ <;>
    rw [enter, h]
  exact Nat.le_succ _

theorem Later.enter {key' : ℕ} (hl : t.Later key') : (t.enter key).Later key' := by
  obtain ⟨i, hpos, hi, hkey⟩ := hl
  refine ⟨i, hpos, Nat.lt_of_lt_of_le hi le_enter, ?_⟩
  rcases jmpbufFor_cases t key with ⟨_, _, _, h⟩ | ⟨_, _, h⟩ | ⟨_, _, h⟩ <;>
    rw [Table.enter, h]
  · exact hkey
  · exact (Function.update_of_ne (Nat.ne_of_lt hi) ..).trans hkey
  · exact (Function.update_of_ne (Nat.ne_of_gt hpos) ..).trans hkey

theorem found {i : ℕ} (hd : t.Distinct) (hi : i < t.n) (hkey : t.keys i = key) :
    t.place key = i ∧ t.enter key = t := by
  rcases jmpbufFor_cases t key with ⟨j, hj, hkj, h⟩ | ⟨habs, _⟩ | ⟨habs, _⟩
  · rw [place, enter, h]
    exact ⟨hd j i hj hi (hkj.trans hkey.symm), rfl⟩
  · exact absurd hkey (habs i hi)
  · exact absurd hkey (habs i hi)

theorem fresh (habs : t.Absent key) (hn : t.n < capacity) :
    t.place key = t.n ∧
      t.enter key = { t with keys := Function.update t.keys t.n key, n := t.n + 1 } := by
  rcases jmpbufFor_cases t key with ⟨j, hj, hkj, _⟩ | ⟨_, _, h⟩ | ⟨_, hfull, _⟩
  · exact absurd hkj (habs j hj)
  · rw [place, enter, h]
    exact ⟨rfl, rfl⟩
  · omega

theorem reused (habs : t.Absent key) (hn : capacity ≤ t.n) :
    t.place key = 0 ∧ t.enter key = { t with keys := Function.update t.keys 0 key } := by
  rcases jmpbufFor_cases t key with ⟨j, hj, hkj, _⟩ | ⟨_, hfree, _⟩ | ⟨_, _, h⟩
  · exact absurd hkj (habs j hj)
  · omega
  · rw [place, enter, h]
    exact ⟨rfl, rfl⟩

theorem place_eq_zero (hd : t.Distinct) (hn : capacity ≤ t.n) (hl : ¬ t.Later key) :
    t.place key = 0 := by
  by_cases habs : t.Absent key
  · exact (reused habs hn).1
  · simp only [Absent, not_forall, not_not] at habs
    obtain ⟨i, hi, hkey⟩ := habs
    rw [(found hd hi hkey).1]
    by_contra hne
    exact hl ⟨i, Nat.pos_of_ne_zero hne, hi, hkey⟩

end Table

/-! ### What holds in every run -/

/-- The slots behind the first one hold the last `setjmp` of their keys, and so does the first until
the table is full; before that a key without a slot has not been used. -/
structure Inv (s : State) : Prop where
  bound : s.table.n ≤ capacity
  distinct : s.table.Distinct
  held : ∀ i < s.table.n, 0 < i ∨ s.table.n < capacity →
    s.table.bufs i = s.last (s.table.keys i)
  empty : ∀ i, s.table.n ≤ i → s.table.bufs i = none
  saved : ∀ i c, s.table.bufs i = some c → c < s.count
  single : ∀ i j c, s.table.bufs i = some c → s.table.bufs j = some c → i = j
  unused : s.table.n < capacity → ∀ key, s.table.Absent key → s.last key = none
  counted : ∀ key i, s.last key = some i → i < s.count
  once : ∀ key key' i, s.last key = some i → s.last key' = some i → key = key'

theorem inv_start : Inv start where
  bound := Nat.zero_le _
  distinct i _ hi _ _ := absurd hi (Nat.not_lt_zero i)
  held i hi _ := absurd hi (Nat.not_lt_zero i)
  empty _ _ := rfl
  saved _ _ h := nomatch h
  single _ _ _ h := nomatch h
  unused _ _ _ := rfl
  counted _ _ h := nomatch h
  once _ _ _ h := nomatch h

theorem Inv.enter {s : State} (h : Inv s) (key : ℕ) :
    (s.table.enter key).n ≤ capacity ∧ s.table.place key < (s.table.enter key).n ∧
      (s.table.enter key).keys (s.table.place key) = key ∧
        ∀ i, i < (s.table.enter key).n → i ≠ s.table.place key →
          i < s.table.n ∧ (s.table.enter key).keys i = s.table.keys i ∧ s.table.keys i ≠ key := by
  by_cases habs : s.table.Absent key
  · by_cases hn : s.table.n < capacity
    · obtain ⟨hplace, henter⟩ := Table.fresh habs hn
      rw [hplace, henter]
      refine ⟨hn, Nat.lt_succ_self _, Function.update_self .., fun i hi hne => ?_⟩
      have hi' : i < s.table.n := Nat.lt_of_le_of_ne (Nat.le_of_lt_succ hi) hne
      exact ⟨hi', Function.update_of_ne hne .., habs i hi'⟩
    · have hfull : capacity ≤ s.table.n := Nat.le_of_not_lt hn
      have hpos : 0 < s.table.n := Nat.lt_of_lt_of_le (by decide) hfull
      obtain ⟨hplace, henter⟩ := Table.reused habs hfull
      rw [hplace, henter]
      exact ⟨h.bound, hpos, Function.update_self (0 : ℕ) key s.table.keys,
        fun i hi hne => ⟨hi, Function.update_of_ne hne .., habs i hi⟩⟩
  · simp only [Table.Absent, not_forall, not_not] at habs
    obtain ⟨i, hi, hkey⟩ := habs
    obtain ⟨hplace, henter⟩ := Table.found h.distinct hi hkey
    rw [hplace, henter]
    refine ⟨h.bound, hi, hkey, fun j hj hne => ⟨hj, rfl, fun hkj => hne ?_⟩⟩
    exact h.distinct j i hj hi (hkj.trans hkey.symm)

theorem Inv.enter_distinct {s : State} (h : Inv s) (key : ℕ) : (s.table.enter key).Distinct := by
  obtain ⟨_, _, hkey, hrest⟩ := h.enter key
  intro i j hi hj heq
  by_cases his : i = s.table.place key <;> by_cases hjs : j = s.table.place key
  · rw [his, hjs]
  · obtain ⟨_, hj', hne⟩ := hrest j hj hjs
    rw [his, hkey, hj'] at heq
    exact absurd heq.symm hne
  · obtain ⟨_, hi', hne⟩ := hrest i hi his
    rw [hjs, hkey, hi'] at heq
    exact absurd heq hne
  · obtain ⟨hi, hi', _⟩ := hrest i hi his
    obtain ⟨hj, hj', _⟩ := hrest j hj hjs
    exact h.distinct i j hi hj (by rw [← hi', ← hj', heq])

theorem Inv.absent_of_enter {s : State} (h : Inv s) {key key' : ℕ}
    (hn : (s.table.enter key).n < capacity) (habs : (s.table.enter key).Absent key') :
    s.table.n < capacity ∧ s.table.Absent key' ∧ key' ≠ key := by
  obtain ⟨_, hlt, hkey, hrest⟩ := h.enter key
  rcases Table.jmpbufFor_cases s.table key with ⟨i, hi, hk, heq⟩ | ⟨ha, hf, heq⟩ |
    ⟨ha, hf, heq⟩
  · have hadm : s.table.enter key = s.table := by rw [Table.enter, heq]
    rw [hadm] at hn habs
    exact ⟨hn, habs, fun hkk => habs i hi (hk.trans hkk.symm)⟩
  · refine ⟨hf, fun i hi hk => ?_, fun hkk => habs _ hlt (hkey.trans hkk.symm)⟩
    have hadm := (Table.fresh ha hf).2
    have hi' : i < (s.table.enter key).n := by
      rw [hadm]
      exact Nat.lt_succ_of_lt hi
    refine habs i hi' ?_
    rw [hadm]
    exact (Function.update_of_ne (Nat.ne_of_lt hi) ..).trans hk
  · have hadm := (Table.reused ha hf).2
    rw [hadm] at hn
    exact absurd hn (Nat.not_lt.mpr hf)

theorem Inv.place_held {s : State} (h : Inv s) (key : ℕ)
    (hpos : 0 < s.table.place key ∨ (s.table.enter key).n < capacity) :
    s.table.bufs (s.table.place key) = s.last key := by
  by_cases habs : s.table.Absent key
  · by_cases hn : s.table.n < capacity
    · rw [(Table.fresh habs hn).1, h.empty _ le_rfl, h.unused hn key habs]
    · obtain ⟨hplace, henter⟩ := Table.reused habs (Nat.le_of_not_lt hn)
      rw [hplace, henter] at hpos
      exact absurd (hpos.resolve_left (Nat.lt_irrefl 0)) hn
  · simp only [Table.Absent, not_forall, not_not] at habs
    obtain ⟨i, hi, hkey⟩ := habs
    obtain ⟨hplace, henter⟩ := Table.found h.distinct hi hkey
    rw [hplace, henter] at hpos
    rw [hplace, h.held i hi hpos, hkey]

theorem inv_longjmp {s : State} (h : Inv s) (key : ℕ) : Inv (step s (.longjmp key)) := by
  obtain ⟨hbound, _, hkey, hrest⟩ := h.enter key
  refine ⟨hbound, h.enter_distinct key, ?_, ?_, ?_, ?_, ?_, h.counted, h.once⟩
  · intro i hi hpos
    show (s.table.enter key).bufs i = s.last ((s.table.enter key).keys i)
    rw [Table.bufs_enter]
    by_cases hplace : i = s.table.place key
    · subst hplace
      rw [hkey]
      exact h.place_held key hpos
    · obtain ⟨hi', hk, _⟩ := hrest i hi hplace
      rw [hk]
      exact h.held i hi' (hpos.imp_right (Nat.lt_of_le_of_lt Table.le_enter))
  · intro i hi
    show (s.table.enter key).bufs i = none
    rw [Table.bufs_enter]
    exact h.empty i (Table.le_enter.trans hi)
  · intro i c hc
    exact h.saved i c (Table.bufs_enter ▸ hc)
  · intro i j c hi hj
    exact h.single i j c (Table.bufs_enter ▸ hi) (Table.bufs_enter ▸ hj)
  · intro hn key' habs
    obtain ⟨hn', habs', _⟩ := h.absent_of_enter hn habs
    exact h.unused hn' key' habs'

theorem bufs_setjmp (s : State) (key i : ℕ) : (step s (.setjmp key)).table.bufs i =
    if i = s.table.place key then some s.count else s.table.bufs i := by
  show Function.update (s.table.enter key).bufs (s.table.place key) (some s.count) i = _
  rw [Table.bufs_enter, Function.update_apply]

theorem last_setjmp (s : State) (key key' : ℕ) : (step s (.setjmp key)).last key' =
    if key' = key then some s.count else s.last key' :=
  Function.update_apply ..

theorem inv_setjmp {s : State} (h : Inv s) (key : ℕ) : Inv (step s (.setjmp key)) := by
  obtain ⟨hbound, hlt, hkey, hrest⟩ := h.enter key
  refine ⟨hbound, h.enter_distinct key, ?_, ?_, ?_, ?_, ?_, ?_, ?_⟩
  · intro i hi hpos
    rw [bufs_setjmp, last_setjmp]
    show _ = if (s.table.enter key).keys i = key then _ else s.last ((s.table.enter key).keys i)
    by_cases hplace : i = s.table.place key
    · rw [if_pos hplace, hplace, if_pos hkey]
    · obtain ⟨hi', hk, hne⟩ := hrest i hi hplace
      rw [hk, if_neg hplace, if_neg hne]
      exact h.held i hi' (hpos.imp_right (Nat.lt_of_le_of_lt Table.le_enter))
  · intro i hi
    have hi' : (s.table.enter key).n ≤ i := hi
    rw [bufs_setjmp, if_neg (by omega)]
    exact h.empty i (Table.le_enter.trans hi')
  · intro i c hc
    show c < s.count + 1
    rw [bufs_setjmp] at hc
    split at hc
    · rw [← Option.some.inj hc]
      exact Nat.lt_succ_self _
    · exact Nat.lt_succ_of_lt (h.saved i c hc)
  · intro i j c hi hj
    rw [bufs_setjmp] at hi hj
    split at hi <;> split at hj
    · omega
    · have := h.saved j c hj
      have := Option.some.inj hi
      omega
    · have := h.saved i c hi
      have := Option.some.inj hj
      omega
    · exact h.single i j c hi hj
  · intro hn key' habs
    obtain ⟨hn', habs', hne⟩ := h.absent_of_enter hn habs
    rw [last_setjmp, if_neg hne]
    exact h.unused hn' key' habs'
  · intro key' i hi
    show i < s.count + 1
    rw [last_setjmp] at hi
    split at hi
    · rw [← Option.some.inj hi]
      exact Nat.lt_succ_self _
    · exact Nat.lt_succ_of_lt (h.counted key' i hi)
  · intro k k' i hi hi'
    rw [last_setjmp] at hi hi'
    split at hi <;> split at hi'
    · omega
    · have := h.counted k' i hi'
      have := Option.some.inj hi
      omega
    · have := h.counted k i hi
      have := Option.some.inj hi'
      omega
    · exact h.once k k' i hi hi'

theorem inv_step {s : State} (h : Inv s) (e : Event) : Inv (step s e) := by
  cases e with
  | setjmp key => exact inv_setjmp h key
  | longjmp key => exact inv_longjmp h key
  | ends i =>
    exact ⟨h.bound, h.distinct, h.held, h.empty, h.saved, h.single, h.unused, h.counted, h.once⟩

/-! ### The law -/

variable {s : State}

theorem Inv.target_eq (h : Inv s) {key : ℕ} (hl : s.table.n < capacity ∨ s.table.Later key) :
    s.target key = s.last key := by
  by_cases habs : s.table.Absent key
  · rcases hl with hn | ⟨i, _, hi, hkey⟩
    · rw [State.target, (Table.fresh habs hn).1, h.empty _ le_rfl, h.unused hn key habs]
    · exact absurd hkey (habs i hi)
  · simp only [Table.Absent, not_forall, not_not] at habs
    obtain ⟨i, hi, hkey⟩ := habs
    rw [State.target, (Table.found h.distinct hi hkey).1, ← hkey]
    refine h.held i hi (hl.symm.imp_left ?_)
    rintro ⟨j, hpos, hj, hkj⟩
    rwa [h.distinct i j hi hj (hkey.trans hkj.symm)]

theorem Inv.target_shared (h : Inv s) {key : ℕ} (hn : capacity ≤ s.table.n)
    (hl : ¬ s.table.Later key) : s.target key = s.table.bufs 0 := by
  rw [State.target, Table.place_eq_zero h.distinct hn hl]

/-- A `longjmp` of every key reaches its last `setjmp` if that is live. -/
def Reaches (s : State) : Prop :=
  ∀ key i, s.last key = some i → i ∈ s.live → s.target key = some i

theorem Inv.proper_iff (h : Inv s) : Proper s ↔ Reaches s := by
  refine ⟨fun hp => hp.reaches, fun hr => ⟨hr, ?_⟩⟩
  intro key key' i j hi hli hj hlj hne hplace
  have htarget : s.target key = s.target key' := by rw [State.target, State.target, hplace]
  rw [hr key i hi hli, hr key' j hj hlj] at htarget
  exact hne (h.once key key' i hi (by rw [hj, htarget]))

theorem Inv.first_of_live (h : Inv s) (hr : Reaches s) {key i : ℕ} (hl : ¬ s.table.Later key)
    (hi : s.last key = some i) (hlive : i ∈ s.live) : s.table.bufs 0 = some i := by
  by_cases hn : s.table.n < capacity
  · have hused : ¬ s.table.Absent key := fun habs => nomatch hi.symm.trans (h.unused hn key habs)
    simp only [Table.Absent, not_forall, not_not] at hused
    obtain ⟨j, hj, hkey⟩ := hused
    obtain rfl : j = 0 := by
      by_contra hne
      exact hl ⟨j, Nat.pos_of_ne_zero hne, hj, hkey⟩
    rw [h.held 0 hj (Or.inr hn), hkey, hi]
  · rw [← h.target_shared (Nat.le_of_not_lt hn) hl]
    exact hr key i hi hlive

theorem reaches_longjmp (h : Inv s) (hr : Reaches s) (key : ℕ) :
    Reaches (step s (.longjmp key)) := by
  intro key' i hi hlive
  have h' := inv_longjmp h key
  by_cases hfree : (step s (.longjmp key)).table.n < capacity ∨
      (step s (.longjmp key)).table.Later key'
  · rw [h'.target_eq hfree]
    exact hi
  · obtain ⟨hn, hl⟩ := not_or.mp hfree
    rw [h'.target_shared (Nat.le_of_not_lt hn) hl]
    have hl' : ¬ s.table.Later key' := fun hlater => hl hlater.enter
    exact (congrFun Table.bufs_enter 0).trans (h.first_of_live hr hl' hi hlive)

theorem reaches_setjmp_iff (h : Inv s) (hr : Reaches s) (key : ℕ) :
    Reaches (step s (.setjmp key)) ↔ Fits s (.setjmp key) := by
  have h' := inv_setjmp h key
  obtain ⟨hbound, hlt, hkey, hrest⟩ := h.enter key
  constructor
  · -- What the first slot held is lost.
    intro hr'
    by_contra hfit
    simp only [Fits, not_or, not_forall, not_not] at hfit
    obtain ⟨hn, hl, key', i, hne, hbuf, hlast, hlive⟩ := hfit
    have hfull : capacity ≤ s.table.n := Nat.le_of_not_lt hn
    have hplace : s.table.place key = 0 := Table.place_eq_zero h.distinct hfull hl
    have hl' : ¬ (step s (.setjmp key)).table.Later key' := by
      rintro ⟨j, hpos, hj, hkj⟩
      obtain ⟨hj', hk, _⟩ := hrest j hj (by omega)
      have hbj := h.held j hj' (Or.inl hpos)
      rw [← hk, show (s.table.enter key).keys j = key' from hkj, hlast] at hbj
      have := h.single j 0 i hbj hbuf
      omega
    have htarget := hr' key' i (by rw [last_setjmp, if_neg hne, hlast])
      (List.mem_cons_of_mem _ hlive)
    rw [h'.target_shared (hfull.trans Table.le_enter) hl', bufs_setjmp,
      if_pos hplace.symm] at htarget
    have := h.counted key' i hlast
    have := Option.some.inj htarget
    omega
  · intro hfit key' i hi hlive
    by_cases hfree : (step s (.setjmp key)).table.n < capacity ∨
        (step s (.setjmp key)).table.Later key'
    · rw [h'.target_eq hfree]
      exact hi
    · obtain ⟨hn', hl'⟩ := not_or.mp hfree
      rw [h'.target_shared (Nat.le_of_not_lt hn') hl', bufs_setjmp]
      rw [last_setjmp] at hi
      by_cases hk : key' = key
      · -- The key itself: its slot is the first one.
        rw [if_pos hk] at hi
        have hplace : s.table.place key = 0 := by
          by_contra hne
          exact hl' ⟨_, Nat.pos_of_ne_zero hne, hlt, hkey.trans hk.symm⟩
        rw [if_pos hplace.symm, hi]
      · rw [if_neg hk] at hi
        have hlive' : i ∈ s.live := by
          have hne : i ≠ s.count := Nat.ne_of_lt (h.counted key' i hi)
          exact (List.mem_cons.mp hlive).resolve_left hne
        have hl : ¬ s.table.Later key' := fun hlater => hl' hlater.enter
        have hfirst := h.first_of_live hr hl hi hlive'
        rw [if_neg ?_, hfirst]
        -- The new context goes elsewhere.
        intro hplace
        rcases hfit with hn | ⟨j, hpos, hj, hkj⟩ | hdead
        · rcases Table.jmpbufFor_cases s.table key with
            ⟨j, hj, hkj, _⟩ | ⟨habs, _, _⟩ | ⟨_, hfull, _⟩
          · have hadm := (Table.found h.distinct hj hkj).2
            exact hn' (show (s.table.enter key).n < capacity by rwa [hadm])
          · rw [(Table.fresh habs hn).1] at hplace
            rw [h.empty 0 (Nat.le_of_eq hplace.symm)] at hfirst
            exact nomatch hfirst
          · omega
        · have := (Table.found h.distinct hj hkj).1
          omega
        · exact hdead key' i hk hfirst hi hlive'

theorem reaches_step_iff (h : Inv s) (hr : Reaches s) (e : Event) :
    Reaches (step s e) ↔ Fits s e := by
  cases e with
  | setjmp key => exact reaches_setjmp_iff h hr key
  | longjmp key => exact ⟨fun _ => trivial, fun _ => reaches_longjmp h hr key⟩
  | ends i =>
    refine ⟨fun _ => trivial, fun _ key j hj hlive => ?_⟩
    exact hr key j hj (List.mem_filter.mp hlive).1

/-- In every state that a run of `setjmp` and `longjmp` events reaches a `longjmp` reaches the last
live `setjmp` of its key, exactly where each `setjmp` of the run fits. -/
theorem longjmp_reaches_iff (es : List Event) :
    (∀ pre post, es = pre ++ post → Proper (Runs.run step start pre)) ↔
      Runs.Each step start Fits es := by
  have hinv : ∀ es, Inv (Runs.run step start es) :=
    Runs.run_inv inv_start fun s e h => inv_step h e
  constructor
  · intro hp pre e post hes
    have hpre := ((hinv pre).proper_iff).mp (hp pre (e :: post) hes)
    have hpost := hp (pre ++ [e]) post (by rw [hes, List.append_assoc, List.singleton_append])
    rw [Runs.run_concat] at hpost
    have hnext := inv_step (hinv pre) e
    exact (reaches_step_iff (hinv pre) hpre e).mp (hnext.proper_iff.mp hpost)
  · intro hf
    have hreach : ∀ pre post, es = pre ++ post → Reaches (Runs.run step start pre) := by
      intro pre
      induction pre using List.reverseRecOn with
      | nil => exact fun _ _ _ _ h => nomatch h
      | append_singleton pre e ih =>
        intro post hes
        have hes' : es = pre ++ e :: post := by
          rw [hes, List.append_assoc, List.singleton_append]
        rw [Runs.run_concat]
        exact (reaches_step_iff (hinv pre) (ih _ hes') e).mpr (hf pre e post hes')
    exact fun pre post hes => (hinv pre).proper_iff.mpr (hreach pre post hes)

/-! ### More keys than slots -/

/-- So many `setjmp`s, each of a key of its own. -/
def nested (n : ℕ) : List Event := (List.range n).map .setjmp

/-- The table and the history after `nested n`, while there are free slots. -/
structure Filled (n : ℕ) (s : State) : Prop where
  used : s.table.n = n
  counted : s.count = n
  keys : ∀ i < n, s.table.keys i = i
  last : ∀ key, s.last key = if key < n then some key else none
  live : ∀ i < n, i ∈ s.live
  first : 0 < n → s.table.bufs 0 = some 0

theorem filled_nested {n : ℕ} (hn : n ≤ capacity) : Filled n (Runs.run step start (nested n)) := by
  induction n with
  | zero =>
    exact ⟨rfl, rfl, fun i hi => absurd hi (Nat.not_lt_zero i), fun _ => rfl,
      fun i hi => absurd hi (Nat.not_lt_zero i), fun h => absurd h (Nat.lt_irrefl 0)⟩
  | succ n ih =>
    have h := ih (by omega)
    have hes : nested (n + 1) = nested n ++ [.setjmp n] := by
      rw [nested, nested, List.range_succ, List.map_append, List.map_singleton]
    rw [hes, Runs.run_concat]
    set s := Runs.run step start (nested n)
    have habs : s.table.Absent n := by
      intro i hi hkey
      rw [h.used] at hi
      rw [h.keys i hi] at hkey
      omega
    obtain ⟨hplace, henter⟩ := Table.fresh habs (by rw [h.used]; omega)
    refine ⟨?_, ?_, fun i hi => ?_, fun key => ?_, fun i hi => ?_, fun _ => ?_⟩
    · show (s.table.enter n).n = n + 1
      rw [henter, ← h.used]
    · exact congrArg (· + 1) h.counted
    · show (s.table.enter n).keys i = i
      rw [henter]
      show Function.update s.table.keys s.table.n n i = i
      rw [h.used, Function.update_apply]
      split
      · omega
      · exact h.keys i (by omega)
    · rw [last_setjmp, h.counted, h.last key]
      split_ifs with hk hlt hle hle
      · rw [hk]
      · omega
      · rfl
      · omega
      · omega
      · rfl
    · show i ∈ s.count :: s.live
      rw [h.counted]
      rcases Nat.lt_succ_iff_lt_or_eq.mp hi with hlt | rfl
      · exact List.mem_cons_of_mem _ (h.live i hlt)
      · exact List.mem_cons_self
    · rw [bufs_setjmp, hplace, h.used, h.counted]
      split
      · rename_i h0
        rw [h0]
      · exact h.first (by omega)

theorem Filled.reaches {n : ℕ} {s : State} (h : Filled n s) (hinv : Inv s) : Reaches s := by
  intro key i hi _
  rw [h.last key] at hi
  split at hi
  · rename_i hlt
    have hslot : key < s.table.n := by rwa [h.used]
    rw [State.target, (Table.found hinv.distinct hslot (h.keys key hlt)).1]
    rcases Nat.eq_zero_or_pos key with rfl | hpos
    · rw [h.first hlt, hi]
    · rw [hinv.held key hslot (Or.inl hpos), h.keys key hlt, h.last key, if_pos hlt, hi]
  · exact nomatch hi

/-- After 513 nested `setjmp`s of distinct keys the first one has lost its buffer to the last. -/
theorem not_longjmp_reaches : ¬ Proper (Runs.run step start (nested 513)) := by
  have h := filled_nested (n := 512) le_rfl
  have hes : nested 513 = nested 512 ++ [.setjmp 512] := by
    rw [nested, nested, List.range_succ, List.map_append, List.map_singleton]
  rw [hes, Runs.run_concat]
  set s := Runs.run step start (nested 512)
  have hinv : Inv s := Runs.run_inv inv_start (fun s e h => inv_step h e) _
  intro hp
  rcases (reaches_step_iff hinv (h.reaches hinv) _).mp hp.reaches with hn | ⟨i, _, hi, hkey⟩ | hdead
  · rw [h.used] at hn
    exact absurd hn (by decide)
  · rw [h.used] at hi
    rw [h.keys i hi] at hkey
    omega
  · refine hdead 0 0 (by decide) (h.first (by decide)) ?_ (h.live 0 (by decide))
    rw [h.last 0, if_pos (by decide)]

end Aret.JmpBuf
