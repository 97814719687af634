/-
Mutexes and semaphores, and the invariants of locks and counters over whole runs.

* `locks_kept` — the invariants of all four kinds of objects in every run;
* `not_freed_by_end` — a critical section whose owner is terminated stays owned.
-/
import Aret.FiberLock

namespace Aret.Threads

/-! ### Mutexes -/

def MutexHeld (o : Objs) (t : List Note) (m : ℕ) : Prop :=
  if m < o.nmutex then Owned (o.mutex m).owner (o.mutex m).depth (holders (.mutex m) t)
  else holders (.mutex m) t = []

theorem MutexHeld.congr {o o' : Objs} {t t' : List Note} {m : ℕ} (h : MutexHeld o t m)
    (hn : o'.nmutex = o.nmutex) (ho : o'.mutex m = o.mutex m)
    (ht : holders (.mutex m) t' = holders (.mutex m) t) : MutexHeld o' t' m := by
  unfold MutexHeld
  rw [hn, ho, ht]
  exact h

theorem MutexHeld.owned {o : Objs} {t : List Note} {m : ℕ} (h : MutexHeld o t m)
    (hm : m < o.nmutex) : Owned (o.mutex m).owner (o.mutex m).depth (holders (.mutex m) t) := by
  unfold MutexHeld at h
  rw [if_pos hm] at h
  exact h

theorem MutexHeld.of_eq {o o' : Objs} {t t' : List Note} {m : ℕ} (h : MutexHeld o t m)
    (ho : o'.mutex = o.mutex ∧ o'.nmutex = o.nmutex)
    (ht : holders (.mutex m) t' = holders (.mutex m) t) : MutexHeld o' t' m :=
  h.congr ho.2 (by rw [ho.1]) ht

theorem MutexHeld.create {o : Objs} {t t' : List Note} {m : ℕ} (h : MutexHeld o t m)
    (e : MutexObj) (hne : m ≠ o.nmutex → holders (.mutex m) t' = holders (.mutex m) t)
    (hnew : holders (.mutex m) t = [] → m = o.nmutex →
      Owned e.owner e.depth (holders (.mutex m) t')) :
    MutexHeld { o.setMutex o.nmutex e with nmutex := o.nmutex + 1 } t' m := by
  unfold MutexHeld
  show if m < o.nmutex + 1 then Owned (Function.update o.mutex o.nmutex e m).owner
    (Function.update o.mutex o.nmutex e m).depth _ else _
  by_cases hm : m = o.nmutex
  · subst hm
    unfold MutexHeld at h
    rw [if_neg (lt_irrefl _)] at h
    rw [if_pos (Nat.lt_succ_self _), Function.update_self]
    exact hnew h rfl
  · unfold MutexHeld at h
    rw [Function.update_of_ne hm, hne hm]
    split at h
    · rw [if_pos (by omega)]
      exact h
    · rw [if_neg (by omega)]
      exact h

theorem Owned.mine {done : ℕ → Bool} {o : Objs} {m i : ℕ} {d : ℤ} {hs : List ℕ}
    (h : Owned (o.mutex m).owner d hs) (hf : MutexFree done o m i)
    (hover : ∀ j ∈ hs, j ≠ i → done j = false) :
    (o.mutex m).owner = 0 ∨ (o.mutex m).owner = i + 1 := by
  rcases hf with h0 | h1 | hd
  · exact .inl h0
  · exact .inr h1
  · by_cases h0 : (o.mutex m).owner = 0
    · exact .inl h0
    · right
      have hj : (o.mutex m).owner = (o.mutex m).owner - 1 + 1 := by omega
      by_contra hne
      have hfalse := hover _ (h.pos_of_owner hj) (by omega)
      rw [hfalse] at hd
      cases hd

/-- The entry of a mutex after `ReleaseMutex` by fiber `i`. -/
def MutexObj.released (e : MutexObj) (i : ℕ) : MutexObj :=
  if e.owner = i + 1 ∧ 0 < e.depth then
    { e with owner := if e.depth - 1 = 0 then 0 else e.owner, depth := e.depth - 1 }
  else e

theorem mutexRelease_eq (o : Objs) (m i : ℕ) :
    (o.mutexRelease m i).mutex = Function.update o.mutex m ((o.mutex m).released i) ∧
      (o.mutexRelease m i).nmutex = o.nmutex := by
  show (Objs.mutex (if _ then _ else _) = _) ∧ (Objs.nmutex (if _ then _ else _) = _)
  unfold MutexObj.released
  split
  · exact ⟨rfl, rfl⟩
  · exact ⟨(Function.update_eq_self ..).symm, rfl⟩

theorem Owned.released {e : MutexObj} {i : ℕ} {hs : List ℕ} (h : Owned e.owner e.depth hs) :
    Owned (e.released i).owner (e.released i).depth (hs.erase i) := by
  unfold MutexObj.released
  split
  · rename_i hw
    exact (h.release hw.1).2
  · rename_i hw
    rw [h.erase_other]
    · exact h
    · intro hi
      exact hw ⟨hi, (h.release hi).1⟩

theorem acts_mutexHeld {safe : Prop} {done : ℕ → Bool} {o o' : Objs} {ns t : List Note} (m : ℕ)
    (ha : Acts safe done o ns o') (hsafe : safe) (h : MutexHeld o t m)
    (hdone : ∀ j, done j = true → .ended j ∈ t) (hb : Bounded (.mutex m) (ns ++ t))
    (hover : NotTakenOver m (ns ++ t)) : MutexHeld o' (ns ++ t) m := by
  induction ha with
  | refl => exact h
  | note n hl _ _ ih =>
      exact (ih hb.tail hover.tail).congr rfl rfl (holders_cons_other _ hl)
  | other _ hsame ih => exact (ih hb hover).of_eq ⟨hsame.mutex, hsame.nmutex⟩ rfl
  | csNew _ he ih => exact (ih hb hover).of_eq (by rw [only_csEnsure he]; exact ⟨rfl, rfl⟩) rfl
  | csTook k i _ he ih =>
      exact (ih hb.tail hover.tail).of_eq (by rw [only_csTake he]; exact ⟨rfl, rfl⟩) (if_neg nofun)
  | csGave k i _ ih =>
      exact (ih hb.tail hover.tail).of_eq (by rw [only_csLeave]; exact ⟨rfl, rfl⟩) (if_neg nofun)
  | csDeleted k _ ih =>
      exact (ih hb.tail hover.tail).of_eq (by rw [only_csDelete]; exact ⟨rfl, rfl⟩) (if_neg nofun)
  | csDropped k _ ih =>
      exact (ih hb.tail hover.tail).of_eq (by rw [only_csDrop]; exact ⟨rfl, rfl⟩) (if_neg nofun)
  | srwNew _ he ih => exact (ih hb hover).of_eq (by rw [only_srwEnsure he]; exact ⟨rfl, rfl⟩) rfl
  | srwTook k excl i _ _ he ih =>
      exact (ih hb.tail hover.tail).of_eq (by rw [only_srwTake he]; exact ⟨rfl, rfl⟩) (if_neg nofun)
  | srwGave k excl i _ ih =>
      exact (ih hb.tail hover.tail).of_eq (by rw [only_srwRelease]; exact ⟨rfl, rfl⟩) (if_neg nofun)
  | mutexNew nh _ ih =>
      refine (ih hb hover).create _ (fun _ => rfl) fun hnone _ => ?_
      rw [hnone]
      exact .free
  | mutexNewOwned nh i _ ih =>
      refine (ih hb.tail hover.tail).create _ (fun hne => if_neg ?_) fun hnone hm => ?_
      · rintro e
        cases e
        exact hne rfl
      · subst hm
        rw [List.cons_append, holders_took, hnone]
        exact .held i 0
  | @mutexTook ns₁ o₁ m' i _ hm hfree ih =>
      have hc := ih hb.tail hover.tail
      by_cases hk : m' = m
      · subst hk
        have hown := hc.owned hm
        have hnobody := hover.1 rfl
        have hmine := hown.mine (hfree hsafe) fun j hj hne => by
          by_contra hd
          exact hnobody j hj hne
            (List.mem_append_right _ (hdone j (by rw [Bool.not_eq_false] at hd; exact hd)))
        have hlen := hb.1
        unfold MutexHeld
        show if m' < o₁.nmutex then Owned (Function.update o₁.mutex m' _ m').owner
          (Function.update o₁.mutex m' _ m').depth _ else _
        rw [if_pos hm, Function.update_self, List.cons_append, holders_took]
        refine hown.take hmine ?_
        rw [← holders_took]
        exact hlen
      · refine hc.congr rfl (Function.update_of_ne (Ne.symm hk) ..) (if_neg ?_)
        rintro e
        cases e
        exact hk rfl
  | @mutexGave ns₁ o₁ m' i _ hm ih =>
      have hc := ih hb.tail hover.tail
      obtain ⟨hentry, hn⟩ := mutexRelease_eq o₁ m' i
      by_cases hk : m' = m
      · subst hk
        unfold MutexHeld
        rw [hn, if_pos hm, List.cons_append, holders_gave, hentry, Function.update_self]
        exact (hc.owned hm).released
      · refine hc.congr hn ?_ (if_neg ?_)
        · rw [hentry]
          exact Function.update_of_ne (Ne.symm hk) ..
        · rintro e
          cases e
          exact hk rfl
  | semNew initial max nh _ ih => exact (ih hb.tail hover.tail).congr rfl rfl rfl
  | semPosted i n _ _ _ _ ih => exact (ih hb.tail hover.tail).congr rfl rfl rfl
  | semDowned i _ _ ih =>
      refine (ih hb.tail hover.tail).of_eq ?_ rfl
      split <;> exact ⟨rfl, rfl⟩

/-! ### Semaphores -/

/-- The entry of a semaphore holds its count, which is in the range of the semaphore. -/
def SemOk (o : Objs) (t : List Note) (i : ℕ) : Prop :=
  i < o.nsem → (o.sem i).count = semCount i t ∧ 0 ≤ (o.sem i).count ∧
    (o.sem i).count ≤ (o.sem i).max

theorem SemOk.of_eq {o o' : Objs} {t t' : List Note} {i : ℕ} (h : SemOk o t i)
    (ho : o'.sem = o.sem ∧ o'.nsem = o.nsem) (ht : semCount i t' = semCount i t) :
    SemOk o' t' i := by
  unfold SemOk
  rw [ho.1, ho.2, ht]
  exact h

theorem SemOk.set_other {o : Objs} {t t' : List Note} {i j : ℕ} (h : SemOk o t i) (e : SemObj)
    (hne : i ≠ j) (ht : semCount i t' = semCount i t) : SemOk (o.setSem j e) t' i := by
  intro hi
  show (Function.update o.sem j e i).count = _ ∧ 0 ≤ (Function.update o.sem j e i).count ∧
    (Function.update o.sem j e i).count ≤ (Function.update o.sem j e i).max
  rw [Function.update_of_ne hne, ht]
  exact h hi

theorem SemOk.set_self {o : Objs} {t : List Note} {i : ℕ} {e : SemObj}
    (hc : e.count = semCount i t) (h0 : 0 ≤ e.count) (hle : e.count ≤ e.max) :
    SemOk (o.setSem i e) t i := by
  intro _
  show (Function.update o.sem i e i).count = _ ∧ 0 ≤ (Function.update o.sem i e i).count ∧
    (Function.update o.sem i e i).count ≤ (Function.update o.sem i e i).max
  rw [Function.update_self]
  exact ⟨hc, h0, hle⟩

theorem semCount_posted (i : ℕ) (n : ℤ) (t : List Note) :
    semCount i (.posted i n :: t) = semCount i t + n :=
  if_pos rfl

theorem semCount_downed (i : ℕ) (t : List Note) :
    semCount i (.downed i :: t) = semCount i t - 1 :=
  if_pos rfl

theorem acts_semOk {safe : Prop} {done : ℕ → Bool} {o o' : Objs} {ns t : List Note} (i : ℕ)
    (ha : Acts safe done o ns o') (h : SemOk o t i) (hp : SemProper i (ns ++ t)) :
    SemOk o' (ns ++ t) i := by
  induction ha with
  | refl => exact h
  | note n _ hs _ ih => exact (ih hp.tail).of_eq ⟨rfl, rfl⟩ (semCount_cons_other _ hs)
  | other _ hsame ih => exact (ih hp).of_eq ⟨hsame.sem, hsame.nsem⟩ rfl
  | csNew _ he ih => exact (ih hp).of_eq (by rw [only_csEnsure he]; exact ⟨rfl, rfl⟩) rfl
  | csTook k j _ he ih => exact (ih hp.tail).of_eq (by rw [only_csTake he]; exact ⟨rfl, rfl⟩) rfl
  | csGave k j _ ih => exact (ih hp.tail).of_eq (by rw [only_csLeave]; exact ⟨rfl, rfl⟩) rfl
  | csDeleted k _ ih => exact (ih hp.tail).of_eq (by rw [only_csDelete]; exact ⟨rfl, rfl⟩) rfl
  | csDropped k _ ih => exact (ih hp.tail).of_eq (by rw [only_csDrop]; exact ⟨rfl, rfl⟩) rfl
  | srwNew _ he ih => exact (ih hp).of_eq (by rw [only_srwEnsure he]; exact ⟨rfl, rfl⟩) rfl
  | srwTook k excl j _ _ he ih =>
      exact (ih hp.tail).of_eq (by rw [only_srwTake he]; exact ⟨rfl, rfl⟩) rfl
  | srwGave k excl j _ ih =>
      exact (ih hp.tail).of_eq (by rw [only_srwRelease]; exact ⟨rfl, rfl⟩) rfl
  | mutexNew nh _ ih => exact (ih hp).of_eq ⟨rfl, rfl⟩ rfl
  | mutexNewOwned nh j _ ih => exact (ih hp.tail).of_eq ⟨rfl, rfl⟩ rfl
  | mutexTook m j _ _ _ ih => exact (ih hp.tail).of_eq ⟨rfl, rfl⟩ rfl
  | mutexGave m j _ _ ih =>
      exact (ih hp.tail).of_eq (by rw [only_mutexRelease]; exact ⟨rfl, rfl⟩) rfl
  | @semNew ns₁ o₁ initial max nh _ ih =>
      have hc := ih hp.tail
      intro hi
      show (Function.update o₁.sem o₁.nsem _ i).count = _ ∧
        0 ≤ (Function.update o₁.sem o₁.nsem _ i).count ∧
        (Function.update o₁.sem o₁.nsem _ i).count ≤ (Function.update o₁.sem o₁.nsem _ i).max
      by_cases hj : i = o₁.nsem
      · subst hj
        rw [Function.update_self]
        exact ⟨(if_pos rfl).symm, hp.1 rfl⟩
      · have hi' : i < o₁.nsem + 1 := hi
        rw [Function.update_of_ne hj]
        have hcount := hc (by omega)
        refine ⟨hcount.1.trans (if_neg (Ne.symm hj)).symm, hcount.2⟩
  | @semPosted ns₁ o₁ j n _ hj hn hmax ih =>
      have hc := ih hp.tail
      by_cases hij : i = j
      · subst hij
        obtain ⟨hcount, h0, -⟩ := hc hj
        have hsum : semCount i (ns₁ ++ t) + n < 2 ^ 31 := hp.1 rfl
        rw [← hcount] at hsum
        have hint := int32_of_lt (show 0 ≤ (o₁.sem i).count + n by omega) hsum
        rw [hint] at hmax ⊢
        refine .set_self ?_ ?_ hmax
        · rw [List.cons_append, semCount_posted, ← hcount]
        · show 0 ≤ (o₁.sem i).count + n
          omega
      · exact hc.set_other _ hij (if_neg (Ne.symm hij))
  | @semDowned ns₁ o₁ j _ hj ih =>
      have hc := ih hp.tail
      by_cases hij : i = j
      · subst hij
        obtain ⟨hcount, h0, hle⟩ := hc hj
        have hpos : 0 < semCount i (ns₁ ++ t) := hp.1 rfl
        rw [← hcount] at hpos
        rw [if_pos hpos]
        refine .set_self ?_ ?_ ?_
        · rw [List.cons_append, semCount_downed, ← hcount]
        · show 0 ≤ (o₁.sem i).count - 1
          omega
        · show (o₁.sem i).count - 1 ≤ (o₁.sem i).max
          omega
      · split
        · exact hc.set_other _ hij (if_neg (Ne.symm hij))
        · exact hc.of_eq ⟨rfl, rfl⟩ (if_neg (Ne.symm hij))

/-! ### Runs -/

abbrev AnyRun : (ℕ → ℕ) → List Note → Sys → Prop := Run fun _ _ _ => True

theorem of_append {P : List Note → Prop} (htail : ∀ n t, P (n :: t) → P t) {ns t : List Note}
    (h : P (ns ++ t)) : P t := by
  induction ns with
  | nil => exact h
  | cons n ns ih => exact ih (htail n _ h)

theorem Run.any {ok : List Note → Sys → Label → Prop} {mem : ℕ → ℕ} {t : List Note} {s : Sys}
    (h : Run ok mem t s) : AnyRun mem t s := by
  induction h with
  | start => exact .start
  | step _ _ hs ih => exact ih.step trivial hs

section
variable {mem : ℕ → ℕ} {t : List Note} {s : Sys}

theorem run_csHeld {k : ℕ} (h : AnyRun mem t s) (hb : Bounded (.cs k) t) :
    CsHeld s.objs t k := by
  induction h with
  | start => exact .free
  | step hr _ hs ih =>
      exact acts_csHeld k (step_acts (run_shape hr) hs) (ih (of_append (fun _ _ h => h.tail) hb)) hb

theorem run_srwHeld {k : ℕ} (h : AnyRun mem t s) (hb : Bounded (.srw k false) t)
    (hr : ReleasedByHolders k t) : SrwHeld s.objs t k := by
  induction h with
  | start => exact ⟨.inl ⟨rfl, rfl⟩, rfl⟩
  | step hrun _ hs ih =>
      exact acts_srwHeld k (step_acts (run_shape hrun) hs)
        (ih (of_append (fun _ _ h => h.tail) hb) (of_append (fun _ _ h => h.tail) hr)) hb hr

theorem run_mutexHeld {m : ℕ} (h : Run ArraysKept mem t s) (hb : Bounded (.mutex m) t)
    (hover : NotTakenOver m t) : MutexHeld s.objs t m := by
  induction h with
  | start =>
      show if m < 0 then _ else holders (.mutex m) [] = []
      rw [if_neg (Nat.not_lt_zero m)]
      rfl
  | @step t₁ s₁ l s₂ ns hr hl hs ih =>
      have hshape := run_shape hr
      refine acts_mutexHeld m (step_acts hshape hs) hl
        (ih (of_append (fun _ _ h => h.tail) hb) (of_append (fun _ _ h => h.tail) hover))
        (fun j hd => ?_) hb hover
      unfold Sys.isDone at hd
      exact (hshape.ended j).mp (by simpa using hd)

theorem run_semOk {i : ℕ} (h : AnyRun mem t s) (hp : SemProper i t) : SemOk s.objs t i := by
  induction h with
  | start => exact fun hi => absurd hi (Nat.not_lt_zero i)
  | step hr _ hs ih =>
      exact acts_semOk i (step_acts (run_shape hr) hs) (ih (of_append (fun _ _ h => h.tail) hp)) hp

end

/-! ### The invariants -/

/-- One fiber at most holds the lock; the entry names it, and the depth counts the acquisitions
that it has not released. The lock is free when there are none. -/
structure OneOwner (owner : ℕ) (depth : ℤ) (hs : List ℕ) : Prop where
  one : ∀ i ∈ hs, ∀ j ∈ hs, i = j
  named : ∀ i, owner = i + 1 ↔ i ∈ hs
  counted : depth = hs.length
  free : owner = 0 ↔ hs = []

theorem Owned.oneOwner {w : ℕ} {d : ℤ} {hs : List ℕ} (h : Owned w d hs) : OneOwner w d hs where
  one i hi j hj := by
    have h₁ := (h.owner_of_mem hi).1
    have h₂ := (h.owner_of_mem hj).1
    omega
  named i := ⟨h.pos_of_owner, fun hi => (h.owner_of_mem hi).1⟩
  counted := by
    cases h with
    | free => rfl
    | held i n => rw [List.length_replicate]
  free := h.free_iff

/-- A writer of the SRW lock is its only holder, and the entry agrees with the holders `ws` in
exclusive and `rs` in shared mode. -/
structure OneWriter (l : SrwSlot) (ws rs : List ℕ) : Prop where
  one : ws.length ≤ 1
  alone : ∀ i ∈ ws, ∀ j ∈ rs, j = i
  writer : ∀ i, l.writer = i + 1 ↔ i ∈ ws
  readers : l.readers = rs.length
  free : l.writer = 0 ∧ l.readers = 0 ↔ ws = [] ∧ rs = []

theorem SrwOwned.oneWriter {l : SrwSlot} {ws rs : List ℕ} (h : SrwOwned l ws rs) :
    OneWriter l ws rs := by
  have hr : l.readers = 0 ↔ rs = [] := by
    rw [h.readers]
    exact ⟨fun e => List.eq_nil_of_length_eq_zero (by omega), fun e => by rw [e]; rfl⟩
  rcases h.writer with ⟨hw, rfl⟩ | ⟨i, hw, rfl, hall⟩
  · refine ⟨Nat.zero_le _, nofun, fun i => ?_, h.readers, ?_⟩
    · rw [hw]
      exact ⟨nofun, nofun⟩
    · rw [hr]
      exact and_congr_left' ⟨fun _ => rfl, fun _ => hw⟩
  · refine ⟨le_rfl, fun j hj => ?_, fun j => ?_, h.readers, ?_⟩
    · rw [List.mem_singleton.mp hj]
      exact hall
    · rw [hw, List.mem_singleton]
      omega
    · rw [hw]
      exact ⟨fun e => absurd e.1 (Nat.succ_ne_zero i), fun e => absurd e.1 nofun⟩

/-- The mutex of a handle is free for a fiber that does not hold it when its acquisitions have been
released or its owner has ended. -/
def FreeForOthers (t : List Note) (s : Sys) (m : ℕ) : Prop :=
  ∀ h i, s.objs.mutexIdx h = some m → i ∉ holders (.mutex m) t →
    (s.handleSignaledFor h i = true ↔ ∀ j ∈ holders (.mutex m) t, .ended j ∈ t)

/-- The invariants of locks and counters. -/
structure LocksKept (t : List Note) (s : Sys) : Prop where
  cs : ∀ k, Bounded (.cs k) t →
    OneOwner (s.objs.csSlot k).owner (s.objs.csSlot k).depth (holders (.cs k) t)
  srw : ∀ k, Bounded (.srw k false) t → ReleasedByHolders k t →
    OneWriter (s.objs.srwSlot k) (holders (.srw k true) t) (holders (.srw k false) t)
  sem : ∀ i < s.objs.nsem, SemProper i t →
    (s.objs.sem i).count = semCount i t ∧ 0 ≤ (s.objs.sem i).count ∧
      (s.objs.sem i).count ≤ (s.objs.sem i).max

def MutexesKept (t : List Note) (s : Sys) : Prop :=
  ∀ m < s.objs.nmutex, Bounded (.mutex m) t → NotTakenOver m t →
    OneOwner (s.objs.mutex m).owner (s.objs.mutex m).depth (holders (.mutex m) t) ∧
      FreeForOthers t s m

theorem signaled_mutex {s : Sys} {h m : ℕ} (hm : s.objs.mutexIdx h = some m) (i : ℕ) :
    s.handleSignaledFor h i = ((s.objs.mutex m).owner == 0 || (s.objs.mutex m).owner == i + 1 ||
      s.isDone ((s.objs.mutex m).owner - 1)) := by
  have hbase := handleIdx_base hm
  have hthread : s.threadIdx h = none := by
    refine if_neg fun e => ?_
    rw [hbase] at e
    exact absurd e.1 (by decide)
  unfold Sys.handleSignaledFor
  rw [hthread, eventIdx_none_of_mutexIdx hm, hm]

theorem OneOwner.freeForOthers {t : List Note} {s : Sys} {m : ℕ} (hshape : Shape t s)
    (h : OneOwner (s.objs.mutex m).owner (s.objs.mutex m).depth (holders (.mutex m) t)) :
    FreeForOthers t s m := by
  intro a i ha hi
  have hmine : (s.objs.mutex m).owner ≠ i + 1 := fun e => hi ((h.named i).mp e)
  have hdone : ∀ j, s.isDone j = true ↔ .ended j ∈ t := by
    intro j
    rw [← hshape.ended j]
    unfold Sys.isDone
    exact beq_iff_eq
  rw [signaled_mutex ha, Bool.or_eq_true, Bool.or_eq_true, beq_iff_eq, beq_iff_eq, hdone]
  refine ⟨?_, fun hall => ?_⟩
  · rintro ((h0 | h1) | hd) j hj
    · rw [h.free.mp h0] at hj
      cases hj
    · exact absurd h1 hmine
    · have howner := (h.named j).mpr hj
      rw [howner] at hd
      exact hd
  · cases hw : (s.objs.mutex m).owner with
    | zero => exact .inl (.inl rfl)
    | succ j => exact .inr (hall j ((h.named j).mp hw))

/-- The invariants hold in every run, those of mutexes in every run that changes no array of
handles under a wait. -/
theorem locks_kept {mem : ℕ → ℕ} {t : List Note} {s : Sys} (h : AnyRun mem t s) :
    LocksKept t s ∧ (Run ArraysKept mem t s → MutexesKept t s) := by
  refine ⟨⟨fun k hb => (run_csHeld h hb).oneOwner, fun k hb hr => (run_srwHeld h hb hr).oneWriter,
    fun i hi hp => run_semOk h hp hi⟩, fun hkept m hm hb hover => ?_⟩
  have hone := ((run_mutexHeld hkept hb hover).owned hm).oneOwner
  exact ⟨hone, hone.freeForOthers (run_shape h)⟩

/-! ### A run that meets the conditions, and one in which an owner ends -/

instance decBounded (l : Lock) : DecidablePred (Bounded l)
  | [] => .isTrue trivial
  | _ :: t =>
    have := decBounded l t
    inferInstanceAs (Decidable (_ ∧ Bounded l t))

instance (s : Sys) (i : ℕ) : Decidable (ArrayKept s i) := by
  unfold ArrayKept
  cases (s.fiber i).cont <;> infer_instance

instance (t : List Note) (s : Sys) : (l : Label) → Decidable (ArraysKept t s l)
  | .call _ => .isTrue trivial
  | .turn => inferInstanceAs (Decidable (∀ i ∈ s.wakeRunnable.pick, ArrayKept s i))

/-- The main thread owns a mutex, starts a second thread and sleeps; the second thread enters a
critical section twice and waits for the mutex. -/
def waitForMutex : List Label :=
  [.call (.createMutex true 0), .call (.createThread false 0), .call (.sleep 0), .turn,
    .call (.enterCriticalSection 0x200), .call (.enterCriticalSection 0x200),
    .call (.waitForSingleObject 0x72000000 infinite)]

def passMutex : List Label :=
  [.turn, .call (.releaseMutex 0x72000000), .call (.waitForSingleObject 0x70000001 infinite), .turn]

def passed : List Note × Sys :=
  (runLabels ArraysKept ([], .start fun _ => 0) (waitForMutex ++ passMutex)).get
    (by decide +kernel)

theorem run_passed : Run ArraysKept (fun _ => 0) passed.1 passed.2 :=
  run_of_labels (waitForMutex ++ passMutex) (Option.some_get _).symm .start

theorem locks_kept_passed : OneOwner 2 2 [1, 1] ∧ MutexesKept passed.1 passed.2 := by
  have hk := locks_kept run_passed.any
  have hcs := hk.1.cs 0x200 (by decide +kernel)
  rw [show passed.2.objs.csSlot 0x200 = ⟨2, 2⟩ by decide +kernel,
    show holders (.cs 0x200) passed.1 = [1, 1] by decide +kernel] at hcs
  exact ⟨hcs, hk.2 run_passed⟩

/-- The main thread starts a second one, which enters a critical section and sleeps, and
terminates it. -/
def terminateOwner : List Label :=
  [.call (.createThread false 0), .call (.sleep 0), .turn, .call (.enterCriticalSection 0x200),
    .call (.sleep 0), .turn, .call (.terminateThread 0x70000001 0)]

def orphaned : List Note × Sys :=
  (runLabels (fun _ _ _ => True) ([], .start fun _ => 0) terminateOwner).get (by decide +kernel)

/-- A critical section stays owned when its owner ends. -/
theorem not_freed_by_end : ¬ ∀ mem t s, AnyRun mem t s → ∀ k,
    ((s.objs.csSlot k).owner = 0 ↔ ∀ i ∈ holders (.cs k) t, .ended i ∈ t) := by
  intro h
  have hrun : AnyRun (fun _ => 0) orphaned.1 orphaned.2 :=
    run_of_labels terminateOwner (Option.some_get _).symm .start
  have howner : (orphaned.2.objs.csSlot 0x200).owner ≠ 0 := by decide +kernel
  have hended : ∀ i ∈ holders (.cs 0x200) orphaned.1, .ended i ∈ orphaned.1 := by decide +kernel
  exact howner ((h _ _ _ hrun 0x200).mpr hended)

end Aret.Threads
