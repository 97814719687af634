/-
Named events, mutexes and semaphores.

The runtime keeps a hash of the name of an object, and takes an object with the hash of
a name for the object of that name.

* `named_lawful_iff` — the runs whose calls are lawful.
-/
import Aret.OutBuf
import Aret.Runs
import Aret.Wcsto

namespace Aret.Named

open Wcsto (WStr)

/-! ### Names -/

inductive Name
  | narrow (s : CStr)
  | wide (s : WStr)

def Name.chars : Name → List ℕ
  | .narrow s => s.bytes.map UInt8.toNat
  | .wide s => s.units.map UInt16.toNat

def Name.fnv : Name → UInt32
  | .narrow s => s.bytes.foldl (fun h b => (h ^^^ b.toUInt32) * 16777619) 2166136261
  | .wide s => s.units.foldl (fun h u => (h ^^^ (u &&& 0xFF).toUInt32) * 16777619) 2166136261

/-- `u32_name_hash`; 0 is the hash of no name. -/
def nameHash : Option Name → UInt32
  | none => 0
  | some n => if n.fnv = 0 then 1 else n.fnv

theorem nameHash_eq_zero {n : Option Name} : nameHash n = 0 ↔ n = none := by
  cases n with
  | none => exact ⟨fun _ => rfl, fun _ => rfl⟩
  | some n =>
    refine ⟨fun h => ?_, fun h => nomatch h⟩
    rw [nameHash] at h
    split_ifs at h with hzero
    · exact absurd h (by decide)
    · exact absurd h hzero

theorem fnv_eq (n : Name) :
    n.fnv = n.chars.foldl (fun h c => (h ^^^ UInt32.ofNat (c % 256)) * 16777619) 2166136261 := by
  cases n with
  | narrow s =>
    rw [Name.fnv, Name.chars, List.foldl_map]
    have hunit : ∀ b : UInt8, b.toUInt32 = UInt32.ofNat (b.toNat % 256) := by
      intro b
      have hlt : b.toNat < 256 := UInt8.toNat_lt b
      refine UInt32.toNat_inj.mp ?_
      rw [UInt8.toNat_toUInt32, UInt32.toNat_ofNat']
      omega
    simp only [hunit]
  | wide s =>
    rw [Name.fnv, Name.chars, List.foldl_map]
    have hunit : ∀ u : UInt16, (u &&& 0xFF).toUInt32 = UInt32.ofNat (u.toNat % 256) := by
      intro u
      have hand : (u &&& 0xFF).toNat = u.toNat % 256 := by
        rw [UInt16.toNat_and]
        exact Nat.and_two_pow_sub_one_eq_mod u.toNat 8
      refine UInt32.toNat_inj.mp ?_
      rw [UInt16.toNat_toUInt32, UInt32.toNat_ofNat', hand]
      omega
    simp only [hunit]

theorem nameHash_congr {n n' : Name} (h : n.chars = n'.chars) :
    nameHash (some n) = nameHash (some n') := by
  rw [nameHash, nameHash, fnv_eq, fnv_eq, h]

/-! ### Objects -/

inductive Kind
  | event
  | mutex
  | sem
deriving DecidableEq

structure EventObj where
  manual : Bool
  signaled : Bool

/-- The owner is a fiber, counted from 1; 0 is none. -/
structure MutexObj where
  owner : ℕ
  depth : ℕ

structure SemObj where
  count : ℤ
  max : ℤ

def Obj : Kind → Type
  | .event => EventObj
  | .mutex => MutexObj
  | .sem => SemObj

structure Entry (α : Type) where
  hash : UInt32
  obj : α

/-- The tables; an entry that has been made stays.  A handle is the base of its kind with the index
of its entry. -/
structure State where
  table : (k : Kind) → List (Entry (Obj k))
  lastError : ℕ

def lookup (s : State) (k : Kind) (nh : UInt32) : Option ℕ :=
  if nh = 0 then none else (s.table k).findIdx? fun e => e.hash = nh

/-- `U32_MAX_EVENT`, `U32_MAX_MUTEX` and `U32_MAX_SEM`. -/
def maxObj : ℕ := 128

def errorFileNotFound : ℕ := 2

def errorNotEnoughMemory : ℕ := 8

def errorAlreadyExists : ℕ := 183

def State.insert (s : State) (k : Kind) (nh : UInt32) (x : Obj k) : State :=
  { s with table := Function.update s.table k (s.table k ++ [⟨nh, x⟩]) }

def createIn (s : State) (k : Kind) (nh : UInt32) (x : Obj k) : Option ℕ × State :=
  match lookup s k nh with
  | some i => (some i, { s with lastError := errorAlreadyExists })
  | none =>
    if maxObj ≤ (s.table k).length then (none, { s with lastError := errorNotEnoughMemory })
    else (some (s.table k).length, s.insert k nh x)

def openIn (s : State) (k : Kind) (nh : UInt32) : Option ℕ × State :=
  match lookup s k nh with
  | some i => (some i, s)
  | none => (none, { s with lastError := errorFileNotFound })

/-- `u32_create_event`. -/
def createEvent (s : State) (manual initial : Bool) (nh : UInt32) : Option ℕ × State :=
  createIn s .event nh (⟨manual, initial⟩ : EventObj)

/-- `u32_create_mutex`, by the fiber `cur`. -/
def createMutex (s : State) (cur : ℕ) (initialOwner : Bool) (nh : UInt32) : Option ℕ × State :=
  let x : MutexObj := ⟨if initialOwner then cur + 1 else 0, if initialOwner then 1 else 0⟩
  createIn s .mutex nh x

/-- `u32_open_mutex`. -/
def openMutex (s : State) (nh : UInt32) : Option ℕ × State := openIn s .mutex nh

/-- `u32_create_sem`. -/
def createSem (s : State) (initial maximum : ℤ) (nh : UInt32) : Option ℕ × State :=
  createIn s .sem nh (⟨initial, maximum⟩ : SemObj)

/-- `u32_open_sem`. -/
def openSem (s : State) (nh : UInt32) : Option ℕ × State := openIn s .sem nh

/-! ### Calls -/

inductive Call
  | createEvent (manual initial : Bool) (name : Option Name)
  | createMutex (cur : ℕ) (initialOwner : Bool) (name : Option Name)
  | openMutex (name : Option Name)
  | createSemaphore (initial maximum : ℤ) (name : Option Name)
  | openSemaphore (name : Option Name)

namespace Call

def kind : Call → Kind
  | createEvent .. => .event
  | createMutex .. | openMutex .. => .mutex
  | createSemaphore .. | openSemaphore .. => .sem

def name : Call → Option Name
  | createEvent _ _ n | createMutex _ _ n | openMutex n | createSemaphore _ _ n
  | openSemaphore n => n

def creates : Call → Bool
  | createEvent .. | createMutex .. | createSemaphore .. => true
  | openMutex .. | openSemaphore .. => false

end Call

def step (s : State) : Call → Option ℕ × State
  | .createEvent manual initial n => createEvent s manual initial (nameHash n)
  | .createMutex cur initialOwner n => createMutex s cur initialOwner (nameHash n)
  | .openMutex n => openMutex s (nameHash n)
  | .createSemaphore initial maximum n => createSem s initial maximum (nameHash n)
  | .openSemaphore n => openSem s (nameHash n)

abbrev Log := List (Call × Option ℕ)

def next (h : State × Log) (c : Call) : State × Log :=
  ((step h.1 c).2, h.2 ++ [(c, (step h.1 c).1)])

def start : State × Log := (⟨fun _ => [], 0⟩, [])

/-! ### Laws -/

def SameName (c c' : Call) : Prop :=
  ∃ n n', c.name = some n ∧ c'.name = some n' ∧ n.chars = n'.chars

structure Lawful (h : State × Log) (c : Call) : Prop where
  /-- It returns the object of an earlier call of its kind exactly if both have one name. -/
  same : ∀ c' i, (c', some i) ∈ h.2 → c'.kind = c.kind →
    ((step h.1 c).1 = some i ↔ SameName c' c)
  /-- A create returns an object. -/
  creates : c.creates → (step h.1 c).1.isSome
  /-- What an open returns has been created. -/
  opens : ∀ i, (step h.1 c).1 = some i → c.creates = false →
    ∃ c', c'.creates ∧ c'.kind = c.kind ∧ (c', some i) ∈ h.2
  /-- All objects are as they were. -/
  kept : ∀ (k : Kind) (i : ℕ) (e : Entry (Obj k)), (h.1.table k)[i]? = some e →
    ((step h.1 c).2.table k)[i]? = some e

/-- No other name that was created has the hash, and there is room for an object whose name is
new. -/
structure Careful (h : State × Log) (c : Call) : Prop where
  apart : ∀ c' i n n', (c', some i) ∈ h.2 → c'.creates → c'.kind = c.kind → c'.name = some n' →
    c.name = some n → nameHash (some n') = nameHash (some n) → n'.chars = n.chars
  room : c.creates → (∃ c' i, (c', some i) ∈ h.2 ∧ c'.kind = c.kind ∧ SameName c' c) ∨
    (h.1.table c.kind).length < maxObj

/-! ### One call -/

theorem step_eq (s : State) (c : Call) :
    (c.creates ∧ ∃ x, step s c = createIn s c.kind (nameHash c.name) x) ∨
      (c.creates = false ∧ step s c = openIn s c.kind (nameHash c.name)) := by
  cases c with
  | createEvent manual initial n => exact .inl ⟨rfl, _, rfl⟩
  | createMutex cur initialOwner n => exact .inl ⟨rfl, _, rfl⟩
  | openMutex n => exact .inr ⟨rfl, rfl⟩
  | createSemaphore initial maximum n => exact .inl ⟨rfl, _, rfl⟩
  | openSemaphore n => exact .inr ⟨rfl, rfl⟩

theorem step_cases (s : State) (c : Call) :
    (∃ i e, lookup s c.kind (nameHash c.name) = some i ∧ (step s c).1 = some i ∧
      (step s c).2 = ⟨s.table, e⟩) ∨
    (lookup s c.kind (nameHash c.name) = none ∧ c.creates ∧ (s.table c.kind).length < maxObj ∧
      ∃ x, step s c = (some (s.table c.kind).length, s.insert c.kind (nameHash c.name) x)) ∨
    (lookup s c.kind (nameHash c.name) = none ∧
      (c.creates → maxObj ≤ (s.table c.kind).length) ∧ ∃ e, step s c = (none, ⟨s.table, e⟩)) := by
  rcases step_eq s c with ⟨hcreates, x, hstep⟩ | ⟨hopens, hstep⟩
  · rw [hstep, createIn]
    cases hlook : lookup s c.kind (nameHash c.name) with
    | some i => exact .inl ⟨i, _, rfl, rfl, rfl⟩
    | none =>
      dsimp only
      by_cases hfull : maxObj ≤ (s.table c.kind).length
      · rw [if_pos hfull]
        exact .inr (.inr ⟨rfl, fun _ => hfull, _, rfl⟩)
      · rw [if_neg hfull]
        exact .inr (.inl ⟨rfl, hcreates, Nat.lt_of_not_le hfull, x, rfl⟩)
  · rw [hstep, openIn]
    cases hlook : lookup s c.kind (nameHash c.name) with
    | some i => exact .inl ⟨i, _, rfl, rfl, rfl⟩
    | none =>
      refine .inr (.inr ⟨rfl, fun hcreates => ?_, _, rfl⟩)
      rw [hopens] at hcreates
      exact absurd hcreates Bool.false_ne_true

/-! ### The tables -/

variable {s : State} {k : Kind} {nh : UInt32} {i : ℕ}

theorem lookup_some (h : lookup s k nh = some i) :
    nh ≠ 0 ∧ ∃ e, (s.table k)[i]? = some e ∧ e.hash = nh := by
  unfold lookup at h
  split_ifs at h with hzero
  obtain ⟨hi, hhash, -⟩ := List.findIdx?_eq_some_iff_getElem.mp h
  exact ⟨hzero, _, List.getElem?_eq_getElem hi, of_decide_eq_true hhash⟩

theorem lookup_none (h : lookup s k nh = none) (hzero : nh ≠ 0) {e : Entry (Obj k)}
    (he : (s.table k)[i]? = some e) : e.hash ≠ nh := by
  rw [lookup, if_neg hzero] at h
  have hno := List.findIdx?_eq_none_iff.mp h e (List.mem_of_getElem? he)
  exact of_decide_eq_false hno

theorem table_insert_self (x : Obj k) :
    (s.insert k nh x).table k = s.table k ++ [⟨nh, x⟩] := Function.update_self ..

theorem table_insert_of_ne {k' : Kind} (hk : k' ≠ k) (x : Obj k) :
    (s.insert k nh x).table k' = s.table k' := Function.update_of_ne hk ..

theorem getElem?_insert_of_some {k' : Kind} {x : Obj k} {e : Entry (Obj k')}
    (h : (s.table k')[i]? = some e) : ((s.insert k nh x).table k')[i]? = some e := by
  by_cases hk : k' = k
  · subst hk
    have hi := (List.getElem?_eq_some_iff.mp h).1
    rwa [table_insert_self, List.getElem?_append_left hi]
  · rwa [table_insert_of_ne hk]

theorem getElem?_insert {k' : Kind} {x : Obj k} {e : Entry (Obj k')}
    (h : ((s.insert k nh x).table k')[i]? = some e) :
    (s.table k')[i]? = some e ∨ k' = k ∧ i = (s.table k).length ∧ e.hash = nh := by
  by_cases hk : k' = k
  · subst hk
    rw [table_insert_self, List.getElem?_append] at h
    split_ifs at h with hi
    · exact .inl h
    · obtain ⟨hlt, hget⟩ := List.getElem?_eq_some_iff.mp h
      rw [List.length_singleton] at hlt
      refine .inr ⟨rfl, by omega, ?_⟩
      rw [List.getElem_singleton] at hget
      rw [← hget]
  · rw [table_insert_of_ne hk] at h
    exact .inl h

theorem getElem?_insert_length (x : Obj k) :
    ((s.insert k nh x).table k)[(s.table k).length]? = some ⟨nh, x⟩ := by
  rw [table_insert_self]
  exact List.getElem?_concat_length

/-! ### What holds in every run -/

/-- Each object was made by a call of the log, what a call returned has the hash of its name, and
no two objects of a kind have one, unless they have no name. -/
structure Inv (h : State × Log) : Prop where
  made : ∀ (k : Kind) (i : ℕ) (e : Entry (Obj k)), (h.1.table k)[i]? = some e →
    ∃ c, (c, some i) ∈ h.2 ∧ c.creates ∧ c.kind = k ∧ e.hash = nameHash c.name
  there : ∀ c i, (c, some i) ∈ h.2 →
    ∃ e, (h.1.table c.kind)[i]? = some e ∧ e.hash = nameHash c.name
  once : ∀ (k : Kind) (i j : ℕ) (e e' : Entry (Obj k)), (h.1.table k)[i]? = some e →
    (h.1.table k)[j]? = some e' → e.hash = e'.hash → e.hash ≠ 0 → i = j

theorem inv_start : Inv start := by
  refine ⟨fun k i e he => ?_, fun c i hc => absurd hc List.not_mem_nil, fun k i j e e' he => ?_⟩
  · exact nomatch he
  · exact nomatch he

theorem inv_next {h : State × Log} (hinv : Inv h) (c : Call) : Inv (next h c) := by
  have hlog : ∀ c' i, (c', some i) ∈ (next h c).2 ↔
      (c', some i) ∈ h.2 ∨ c' = c ∧ (step h.1 c).1 = some i := by
    intro c' i
    rw [next, List.mem_append, List.mem_singleton, Prod.mk.injEq, eq_comm (a := some i)]
  rcases step_cases h.1 c with ⟨i₀, err, hlook, hret, hstate⟩ |
    ⟨hlook, hcreates, hlt, x, hstep⟩ | ⟨hlook, hfull, err, hstep⟩
  · -- an object is found
    have htable : (next h c).1.table = h.1.table := by rw [next, hstate]
    obtain ⟨hne, e₀, he₀, hhash₀⟩ := lookup_some hlook
    refine ⟨fun k i e he => ?_, fun c' i hc' => ?_, fun k i j e e' he he' => ?_⟩
    · rw [htable] at he
      obtain ⟨c', hmem, hrest⟩ := hinv.made k i e he
      exact ⟨c', (hlog c' i).mpr (.inl hmem), hrest⟩
    · rw [htable]
      rcases (hlog c' i).mp hc' with hmem | ⟨rfl, hsome⟩
      · exact hinv.there c' i hmem
      · obtain rfl := Option.some.inj (hret.symm.trans hsome)
        exact ⟨e₀, he₀, hhash₀⟩
    · rw [htable] at he he'
      exact hinv.once k i j e e' he he'
  · -- an object is made
    have htable : (next h c).1.table = (h.1.insert c.kind (nameHash c.name) x).table := by
      rw [next, hstep]
    have hret : (step h.1 c).1 = some (h.1.table c.kind).length := by rw [hstep]
    refine ⟨fun k i e he => ?_, fun c' i hc' => ?_, fun k i j e e' he he' hsame hne => ?_⟩
    · rw [htable] at he
      rcases getElem?_insert he with hold | ⟨rfl, rfl, hhash⟩
      · obtain ⟨c', hmem, hrest⟩ := hinv.made k i e hold
        exact ⟨c', (hlog c' i).mpr (.inl hmem), hrest⟩
      · exact ⟨c, (hlog c _).mpr (.inr ⟨rfl, hret⟩), hcreates, rfl, hhash⟩
    · rw [htable]
      rcases (hlog c' i).mp hc' with hmem | ⟨rfl, hsome⟩
      · obtain ⟨e, he, hhash⟩ := hinv.there c' i hmem
        exact ⟨e, getElem?_insert_of_some he, hhash⟩
      · obtain rfl := Option.some.inj (hret.symm.trans hsome)
        exact ⟨_, getElem?_insert_length x, rfl⟩
    · rw [htable] at he he'
      rcases getElem?_insert he with hold | ⟨rfl, rfl, hhash⟩
      · rcases getElem?_insert he' with hold' | ⟨rfl, rfl, hhash'⟩
        · exact hinv.once k i j e e' hold hold' hsame hne
        · exact absurd (hsame.trans hhash') (lookup_none hlook (hhash' ▸ hsame ▸ hne) hold)
      · rcases getElem?_insert he' with hold' | ⟨-, rfl, -⟩
        · exact absurd (hsame.symm.trans hhash) (lookup_none hlook (hhash ▸ hne) hold')
        · rfl
  · -- the call fails
    have htable : (next h c).1.table = h.1.table := by rw [next, hstep]
    refine ⟨fun k i e he => ?_, fun c' i hc' => ?_, fun k i j e e' he he' => ?_⟩
    · rw [htable] at he
      obtain ⟨c', hmem, hrest⟩ := hinv.made k i e he
      exact ⟨c', (hlog c' i).mpr (.inl hmem), hrest⟩
    · rw [htable]
      rcases (hlog c' i).mp hc' with hmem | ⟨rfl, hsome⟩
      · exact hinv.there c' i hmem
      · rw [hstep] at hsome
        cases hsome
    · rw [htable] at he he'
      exact hinv.once k i j e e' he he'

/-! ### The laws -/

variable {h : State × Log} {c c' : Call}

theorem Inv.at {k : Kind} (hinv : Inv h) (hmem : (c', some i) ∈ h.2) (hkind : c'.kind = k) :
    ∃ e : Entry (Obj k), (h.1.table k)[i]? = some e ∧ e.hash = nameHash c'.name := by
  subst hkind
  exact hinv.there c' i hmem

theorem step_of_hash (hinv : Inv h) (hmem : (c', some i) ∈ h.2) (hkind : c'.kind = c.kind)
    (hhash : nameHash c'.name = nameHash c.name) (hname : c.name ≠ none) :
    (step h.1 c).1 = some i := by
  have hne : nameHash c.name ≠ 0 := fun hzero => hname (nameHash_eq_zero.mp hzero)
  obtain ⟨e, he, hehash⟩ := hinv.at hmem hkind
  rw [hhash] at hehash
  rcases step_cases h.1 c with ⟨j, err, hlook, hret, -⟩ | ⟨hlook, -⟩ | ⟨hlook, -⟩
  · -- no other object has the hash
    obtain ⟨-, e', he', hehash'⟩ := lookup_some hlook
    have hsame : e'.hash = e.hash := hehash'.trans hehash.symm
    have hj : j = i := hinv.once c.kind j i e' e he' he hsame (hehash' ▸ hne)
    rw [hret, hj]
  · exact absurd hehash (lookup_none hlook hne he)
  · exact absurd hehash (lookup_none hlook hne he)

theorem maker_of_step (hinv : Inv h) (hlook : lookup h.1 c.kind (nameHash c.name) = some i) :
    ∃ c'' n n', (c'', some i) ∈ h.2 ∧ c''.creates ∧ c''.kind = c.kind ∧ c''.name = some n' ∧
      c.name = some n ∧ nameHash (some n') = nameHash (some n) := by
  obtain ⟨hne, e, he, hehash⟩ := lookup_some hlook
  obtain ⟨c'', hmem, hcreates, hkind, hmade⟩ := hinv.made c.kind i e he
  have hhash : nameHash c''.name = nameHash c.name := hmade.symm.trans hehash
  obtain ⟨n, hn⟩ := Option.ne_none_iff_exists'.mp fun hnone => hne (nameHash_eq_zero.mpr hnone)
  have hne'' : nameHash c''.name ≠ 0 := hhash ▸ hne
  obtain ⟨n', hn'⟩ := Option.ne_none_iff_exists'.mp fun hnone =>
    hne'' (nameHash_eq_zero.mpr hnone)
  rw [hn, hn'] at hhash
  exact ⟨c'', n, n', hmem, hcreates, hkind, hn', hn, hhash⟩

theorem SameName.symm (hsame : SameName c c') : SameName c' c := by
  obtain ⟨n, n', hn, hn', hchars⟩ := hsame
  exact ⟨n', n, hn', hn, hchars.symm⟩

theorem SameName.trans {c'' : Call} (hsame : SameName c c') (hsame' : SameName c' c'') :
    SameName c c'' := by
  obtain ⟨n, m, hn, hm, hchars⟩ := hsame
  obtain ⟨m', n', hm', hn', hchars'⟩ := hsame'
  obtain rfl := Option.some.inj (hm.symm.trans hm')
  exact ⟨n, n', hn, hn', hchars.trans hchars'⟩

def OneName (h : State × Log) : Prop :=
  ∀ c c' i, (c, some i) ∈ h.2 → (c', some i) ∈ h.2 → c.kind = c'.kind → c.name ≠ none →
    SameName c c'

theorem oneName_next (hone : OneName h) (hlaw : Lawful h c) : OneName (next h c) := by
  have hlog : ∀ d i, (d, some i) ∈ (next h c).2 →
      (d, some i) ∈ h.2 ∨ d = c ∧ (step h.1 c).1 = some i := by
    intro d i hd
    rw [next, List.mem_append, List.mem_singleton, Prod.mk.injEq, eq_comm (a := some i)] at hd
    exact hd
  intro d d' i hd hd' hkind hname
  rcases hlog d i hd with hmem | ⟨rfl, hret⟩
  · rcases hlog d' i hd' with hmem' | ⟨rfl, hret⟩
    · exact hone d d' i hmem hmem' hkind hname
    · exact (hlaw.same d i hmem hkind).mp hret
  · rcases hlog d' i hd' with hmem' | ⟨rfl, -⟩
    · exact ((hlaw.same d' i hmem' hkind.symm).mp hret).symm
    · obtain ⟨n, hn⟩ := Option.ne_none_iff_exists'.mp hname
      exact ⟨n, n, hn, hn, rfl⟩

theorem careful_of_lawful (hinv : Inv h) (hlaw : Lawful h c) : Careful h c := by
  refine ⟨fun c' i n n' hmem _ hkind hn' hn hhash => ?_, fun hcreates => ?_⟩
  · rw [← hn', ← hn] at hhash
    have hname : c.name ≠ none := hn ▸ Option.some_ne_none n
    have hret := step_of_hash hinv hmem hkind hhash hname
    obtain ⟨m', m, hm', hm, hchars⟩ := (hlaw.same c' i hmem hkind).mp hret
    obtain rfl := Option.some.inj (hm.symm.trans hn)
    obtain rfl := Option.some.inj (hm'.symm.trans hn')
    exact hchars
  · have hsome := hlaw.creates hcreates
    rcases step_cases h.1 c with ⟨i, err, hlook, hret, -⟩ | ⟨-, -, hlt, -⟩ | ⟨-, -, err, hstep⟩
    · obtain ⟨c', n, n', hmem, -, hkind, -⟩ := maker_of_step hinv hlook
      exact .inl ⟨c', i, hmem, hkind, (hlaw.same c' i hmem hkind).mp hret⟩
    · exact .inr hlt
    · rw [hstep] at hsome
      exact absurd hsome Bool.false_ne_true

theorem lawful_of_careful (hinv : Inv h) (hone : OneName h) (hcare : Careful h c) :
    Lawful h c := by
  have hfound : ∀ c' i, (c', some i) ∈ h.2 → c'.kind = c.kind → SameName c' c →
      (step h.1 c).1 = some i := by
    rintro c' i hmem hkind ⟨n', n, hn', hn, hchars⟩
    refine step_of_hash hinv hmem hkind ?_ (hn ▸ Option.some_ne_none n)
    rw [hn', hn]
    exact nameHash_congr hchars
  refine ⟨fun c' i hmem hkind => ⟨fun hret => ?_, hfound c' i hmem hkind⟩, fun hcreates => ?_,
    fun i hret hopens => ?_, fun k i e he => ?_⟩
  · rcases step_cases h.1 c with ⟨j, err, hlook, hret', -⟩ | ⟨-, -, -, x, hstep⟩ |
      ⟨-, -, err, hstep⟩
    · -- the maker of the object and the earlier call have one name, and so have the maker and `c`
      obtain rfl := Option.some.inj (hret'.symm.trans hret)
      obtain ⟨c'', n, n', hmem'', hcreates, hkind'', hn', hn, hhash⟩ := maker_of_step hinv hlook
      have hchars := hcare.apart c'' j n n' hmem'' hcreates hkind'' hn' hn hhash
      have hname : c''.name ≠ none := hn' ▸ Option.some_ne_none n'
      have hsame := hone c'' c' j hmem'' hmem (hkind''.trans hkind.symm) hname
      exact hsame.symm.trans ⟨n', n, hn', hn, hchars⟩
    · -- a new object has an index that no call has returned
      rw [hstep] at hret
      obtain rfl := Option.some.inj hret
      obtain ⟨e, he, -⟩ := hinv.at hmem hkind
      exact absurd (List.getElem?_eq_some_iff.mp he).1 (lt_irrefl _)
    · rw [hstep] at hret
      cases hret
  · rcases hcare.room hcreates with ⟨c', i, hmem, hkind, hsame⟩ | hlt
    · rw [hfound c' i hmem hkind hsame]
      rfl
    · rcases step_cases h.1 c with ⟨j, err, -, hret, -⟩ | ⟨-, -, -, x, hstep⟩ | ⟨-, hfull, -⟩
      · rw [hret]
        rfl
      · rw [hstep]
        rfl
      · exact absurd hlt (Nat.not_lt_of_le (hfull hcreates))
  · rcases step_cases h.1 c with ⟨j, err, hlook, hret', -⟩ | ⟨-, hcreates, -⟩ | ⟨-, -, err, hstep⟩
    · obtain rfl := Option.some.inj (hret'.symm.trans hret)
      obtain ⟨c'', n, n', hmem, hcreates, hkind, -⟩ := maker_of_step hinv hlook
      exact ⟨c'', hcreates, hkind, hmem⟩
    · rw [hopens] at hcreates
      exact absurd hcreates Bool.false_ne_true
    · rw [hstep] at hret
      cases hret
  · rcases step_cases h.1 c with ⟨j, err, -, -, hstate⟩ | ⟨-, -, -, x, hstep⟩ | ⟨-, -, err, hstep⟩
    · rw [hstate]
      exact he
    · rw [hstep]
      exact getElem?_insert_of_some he
    · rw [hstep]
      exact he

/-- All calls of a run are lawful exactly if no name has the hash of another one that was created
before, and there is room for each new object. -/
theorem named_lawful_iff (cs : List Call) :
    Runs.Each next start Lawful cs ↔ Runs.Each next start Careful cs := by
  have hstart : OneName start := fun c c' i hmem => absurd hmem List.not_mem_nil
  refine Runs.each_iff (I := Inv) (H := OneName) ?_ hstart ?_ ?_ ?_ cs
  · exact Runs.run_inv inv_start fun h c hinv => inv_next hinv c
  · exact fun h c _ hone hlaw => oneName_next hone hlaw
  · exact fun h c hinv hlaw => careful_of_lawful hinv hlaw
  · exact fun h c hinv hone hcare => lawful_of_careful hinv hone hcare

/-- The event `A` is returned for the event whose name is the letter 0x141. -/
theorem not_named_lawful :
    ¬∀ cs : List Call, Runs.Each next start Lawful cs := by
  intro h
  let first : Call := .createEvent true false (some (.narrow ⟨[0x41], by decide⟩))
  let second : Call := .createEvent true false (some (.wide ⟨[0x141], by decide⟩))
  have hlaw : Lawful (next start first) second := h [first, second] [first] second [] rfl
  have hret : (step (next start first).1 second).1 = some 0 := by decide
  obtain ⟨n', n, hn', hn, hchars⟩ :=
    (hlaw.same first 0 (List.mem_singleton.mpr rfl) rfl).mp hret
  obtain rfl := Option.some.inj hn'
  obtain rfl := Option.some.inj hn
  exact absurd hchars (by decide)

end Aret.Named
