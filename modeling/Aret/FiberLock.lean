/-
The locks of the runtime, and what a step can do to them.

The notes of a run say who acquired and who released a lock; `holders` is the
list of its acquisitions that are not released, one entry for each.
-/
import Aret.FiberShape

namespace Aret.Threads

/-! ### Acquisitions that are not released -/

/-- The fibers that hold a lock, one entry for each acquisition that is not released. A release
by a fiber that does not hold the lock releases nothing. -/
def holders (l : Lock) : List Note → List ℕ
  | [] => []
  | .took l' i :: t => if l' = l then i :: holders l t else holders l t
  | .gave l' i :: t => if l' = l then (holders l t).erase i else holders l t
  | .dropped l' :: t => if l' = l then [] else holders l t
  | _ :: t => holders l t

def Note.onLock : Note → Bool
  | .took .. | .gave .. | .dropped _ => true
  | _ => false

def Note.onSem : Note → Bool
  | .semCreated .. | .posted .. | .downed _ => true
  | _ => false

/-- The count of semaphore `i`: its initial count and the releases, less the waits. -/
def semCount (i : ℕ) : List Note → ℤ
  | [] => 0
  | .semCreated j initial _ :: t => if j = i then initial else semCount i t
  | .posted j n :: t => if j = i then semCount i t + n else semCount i t
  | .downed j :: t => if j = i then semCount i t - 1 else semCount i t
  | _ :: t => semCount i t

/-! ### The conditions on a run -/

/-- The holders of the lock never pass the range of an `int`. -/
def Bounded (l : Lock) : List Note → Prop
  | [] => True
  | n :: t => (holders l (n :: t)).length < 2 ^ 31 ∧ Bounded l t

def NotTakenOver (m : ℕ) : List Note → Prop
  | [] => True
  | .took (.mutex m') i :: t =>
    (m' = m → ∀ j ∈ holders (.mutex m) t, j ≠ i → .ended j ∉ t) ∧ NotTakenOver m t
  | _ :: t => NotTakenOver m t

def ReleasedByHolders (k : ℕ) : List Note → Prop
  | [] => True
  | .gave (.srw k' false) i :: t =>
    (k' = k → i ∈ holders (.srw k false) t) ∧ ReleasedByHolders k t
  | _ :: t => ReleasedByHolders k t

/-- The semaphore is created with `0 ≤ initial ≤ max`, no release takes the sum past the range of
an `int`, and no wait takes it more often than its count. -/
def SemProper (i : ℕ) : List Note → Prop
  | [] => True
  | .semCreated j initial max :: t => (j = i → 0 ≤ initial ∧ initial ≤ max) ∧ SemProper i t
  | .posted j n :: t => (j = i → semCount i t + n < 2 ^ 31) ∧ SemProper i t
  | .downed j :: t => (j = i → 0 < semCount i t) ∧ SemProper i t
  | _ :: t => SemProper i t

section
variable {n : Note} {t : List Note}

theorem holders_cons_other (l : Lock) (h : n.onLock = false) : holders l (n :: t) = holders l t := by
  cases n <;> first | rfl | cases h

theorem holders_took (l : Lock) (i : ℕ) (t : List Note) :
    holders l (.took l i :: t) = i :: holders l t :=
  if_pos rfl

theorem holders_gave (l : Lock) (i : ℕ) (t : List Note) :
    holders l (.gave l i :: t) = (holders l t).erase i :=
  if_pos rfl

theorem holders_dropped (l : Lock) (t : List Note) : holders l (.dropped l :: t) = [] :=
  if_pos rfl

theorem semCount_cons_other (i : ℕ) (h : n.onSem = false) : semCount i (n :: t) = semCount i t := by
  cases n <;> first | rfl | cases h

theorem Bounded.tail {l : Lock} (h : Bounded l (n :: t)) : Bounded l t := h.2

theorem NotTakenOver.tail {m : ℕ} (h : NotTakenOver m (n :: t)) : NotTakenOver m t := by
  unfold NotTakenOver at h
  split at h
  · trivial
  · rename_i e
    cases e
    exact h.2
  · rename_i e
    cases e
    exact h

theorem ReleasedByHolders.tail {k : ℕ} (h : ReleasedByHolders k (n :: t)) :
    ReleasedByHolders k t := by
  unfold ReleasedByHolders at h
  split at h
  · trivial
  · rename_i e
    cases e
    exact h.2
  · rename_i e
    cases e
    exact h

theorem SemProper.tail {i : ℕ} (h : SemProper i (n :: t)) : SemProper i t := by
  unfold SemProper at h
  split at h
  · trivial
  · rename_i e
    cases e
    exact h.2
  · rename_i e
    cases e
    exact h.2
  · rename_i e
    cases e
    exact h.2
  · rename_i e
    cases e
    exact h

end

/-! ### A slot and its holders -/

/-- The owner and the depth of a slot agree with the holders: nobody, or one fiber as often as
the depth says. -/
inductive Owned : ℕ → ℤ → List ℕ → Prop
  | free : Owned 0 0 []
  | held (i n : ℕ) : Owned (i + 1) (n + 1 : ℕ) (List.replicate (n + 1) i)

theorem int32_of_lt {x : ℤ} (h0 : 0 ≤ x) (h : x < 2 ^ 31) : int32 x = x := by
  unfold int32
  rw [Int.bmod_eq_emod_of_lt] <;> omega

namespace Owned

variable {w i : ℕ} {d : ℤ} {hs : List ℕ}

theorem take (h : Owned w d hs) (hw : w = 0 ∨ w = i + 1) (hb : (i :: hs).length < 2 ^ 31) :
    Owned (i + 1) (int32 (d + 1)) (i :: hs) := by
  cases h with
  | free => exact .held i 0
  | held j n =>
      obtain rfl : j = i := by omega
      rw [List.length_cons, List.length_replicate] at hb
      have hd : int32 (((n + 1 : ℕ) : ℤ) + 1) = ((n + 1 + 1 : ℕ) : ℤ) := by
        rw [int32_of_lt] <;> push_cast <;> omega
      rw [hd]
      exact .held j (n + 1)

theorem release (h : Owned w d hs) (hw : w = i + 1) :
    0 < d ∧ Owned (if d - 1 = 0 then 0 else w) (d - 1) (hs.erase i) := by
  cases h with
  | free => omega
  | held j n =>
      obtain rfl : j = i := by omega
      refine ⟨by push_cast; omega, ?_⟩
      rw [List.replicate_succ, List.erase_cons_head]
      cases n with
      | zero => exact .free
      | succ n =>
          have hd : ((n + 1 + 1 : ℕ) : ℤ) - 1 = ((n + 1 : ℕ) : ℤ) := by
            push_cast
            omega
          rw [hd, if_neg (by push_cast; omega)]
          exact .held j n

theorem erase_other (h : Owned w d hs) (hw : w ≠ i + 1) : hs.erase i = hs := by
  refine List.erase_of_not_mem ?_
  cases h with
  | free => exact List.not_mem_nil
  | held j n =>
      intro hi
      have := List.eq_of_mem_replicate hi
      omega

theorem pos_of_owner (h : Owned w d hs) (hw : w = i + 1) : i ∈ hs := by
  cases h with
  | free => omega
  | held j n =>
      obtain rfl : j = i := by omega
      exact List.mem_cons_self

theorem owner_of_mem (h : Owned w d hs) (hi : i ∈ hs) : w = i + 1 ∧ d = hs.count i := by
  cases h with
  | free => cases hi
  | held j n =>
      obtain rfl := List.eq_of_mem_replicate hi
      exact ⟨rfl, by rw [List.count_replicate_self]⟩

theorem free_iff (h : Owned w d hs) : w = 0 ↔ hs = [] := by
  cases h with
  | free => exact ⟨fun _ => rfl, fun _ => rfl⟩
  | held j n => exact ⟨by omega, nofun⟩

end Owned

/-! ### What a step can do to the objects -/

/-- Fiber `i` may take the mutex: it is free, its own, or its owner has ended. -/
def MutexFree (done : ℕ → Bool) (o : Objs) (m i : ℕ) : Prop :=
  (o.mutex m).owner = 0 ∨ (o.mutex m).owner = i + 1 ∨ done ((o.mutex m).owner - 1) = true

/-- The tables of locks and semaphores are the same. -/
structure Objs.SameLocks (o o' : Objs) : Prop where
  cs : o'.cs = o.cs
  srw : o'.srw = o.srw
  mutex : o'.mutex = o.mutex
  nmutex : o'.nmutex = o.nmutex
  sem : o'.sem = o.sem
  nsem : o'.nsem = o.nsem

/-- The changes that the runtime makes to the object tables `o`, and their notes. `done` says
which fibers have ended; only a `safe` step takes mutexes that may be taken. -/
inductive Acts (safe : Prop) (done : ℕ → Bool) (o : Objs) : List Note → Objs → Prop
  | refl : Acts safe done o [] o
  | note {ns o'} (n : Note) (hl : n.onLock = false) (hs : n.onSem = false) :
      Acts safe done o ns o' → Acts safe done o (n :: ns) o'
  | other {ns o' o''} : Acts safe done o ns o' → o'.SameLocks o'' → Acts safe done o ns o''
  | csNew {ns o' o'' k} : Acts safe done o ns o' → o'.csEnsure k = some o'' →
      Acts safe done o ns o''
  | csTook {ns o' o''} (k i : ℕ) : Acts safe done o ns o' → o'.csTake k i = some o'' →
      Acts safe done o (.took (.cs k) i :: ns) o''
  | csGave {ns o'} (k i : ℕ) : Acts safe done o ns o' →
      Acts safe done o (.gave (.cs k) i :: ns) (o'.csLeave k i)
  | csDeleted {ns o'} (k : ℕ) : Acts safe done o ns o' →
      Acts safe done o (.dropped (.cs k) :: ns) (o'.csDelete k)
  | csDropped {ns o'} (k : ℕ) : Acts safe done o ns o' →
      Acts safe done o (.dropped (.cs k) :: ns) (o'.csDrop k)
  | srwNew {ns o' o'' k} : Acts safe done o ns o' → o'.srwEnsure k = some o'' →
      Acts safe done o ns o''
  | srwTook {ns o' o''} (k : ℕ) (excl : Bool) (i : ℕ) : Acts safe done o ns o' →
      o'.srwAcquirable k excl i = true → o'.srwTake k excl i = some o'' →
      Acts safe done o (.took (.srw k excl) i :: ns) o''
  | srwGave {ns o'} (k : ℕ) (excl : Bool) (i : ℕ) : Acts safe done o ns o' →
      Acts safe done o (.gave (.srw k excl) i :: ns) (o'.srwRelease k excl i)
  | mutexNew {ns o'} (nh : ℕ) : Acts safe done o ns o' →
      Acts safe done o ns { o'.setMutex o'.nmutex ⟨0, 0, nh⟩ with nmutex := o'.nmutex + 1 }
  | mutexNewOwned {ns o'} (nh i : ℕ) : Acts safe done o ns o' →
      Acts safe done o (.took (.mutex o'.nmutex) i :: ns)
        { o'.setMutex o'.nmutex ⟨i + 1, 1, nh⟩ with nmutex := o'.nmutex + 1 }
  | mutexTook {ns o'} (m i : ℕ) : Acts safe done o ns o' → m < o'.nmutex →
      (safe → MutexFree done o' m i) →
      Acts safe done o (.took (.mutex m) i :: ns) (o'.setMutex m
        { o'.mutex m with owner := i + 1, depth := int32 ((o'.mutex m).depth + 1) })
  | mutexGave {ns o'} (m i : ℕ) : Acts safe done o ns o' → m < o'.nmutex →
      Acts safe done o (.gave (.mutex m) i :: ns) (o'.mutexRelease m i)
  | semNew {ns o'} (initial max : ℤ) (nh : ℕ) : Acts safe done o ns o' →
      Acts safe done o (.semCreated o'.nsem initial max :: ns)
        { o'.setSem o'.nsem ⟨initial, max, nh⟩ with nsem := o'.nsem + 1 }
  | semPosted {ns o'} (i : ℕ) (n : ℤ) : Acts safe done o ns o' → i < o'.nsem → 0 < n →
      int32 ((o'.sem i).count + n) ≤ (o'.sem i).max →
      Acts safe done o (.posted i n :: ns)
        (o'.setSem i { o'.sem i with count := int32 ((o'.sem i).count + n) })
  | semDowned {ns o'} (i : ℕ) : Acts safe done o ns o' → i < o'.nsem →
      Acts safe done o (.downed i :: ns) (if 0 < (o'.sem i).count then
        o'.setSem i { o'.sem i with count := (o'.sem i).count - 1 } else o')

section
variable {safe : Prop} {done : ℕ → Bool} {o o₁ o₂ : Objs} {ns ns₁ ns₂ : List Note}

theorem Acts.trans (h₁ : Acts safe done o ns₁ o₁) (h₂ : Acts safe done o₁ ns₂ o₂) :
    Acts safe done o (ns₂ ++ ns₁) o₂ := by
  induction h₂ with
  | refl => exact h₁
  | note n hl hs _ ih => exact ih.note n hl hs
  | other _ hsame ih => exact ih.other hsame
  | csNew _ he ih => exact ih.csNew he
  | csTook k i _ he ih => exact ih.csTook k i he
  | csGave k i _ ih => exact ih.csGave k i
  | csDeleted k _ ih => exact ih.csDeleted k
  | csDropped k _ ih => exact ih.csDropped k
  | srwNew _ he ih => exact ih.srwNew he
  | srwTook k excl i _ ha he ih => exact ih.srwTook k excl i ha he
  | srwGave k excl i _ ih => exact ih.srwGave k excl i
  | mutexNew nh _ ih => exact ih.mutexNew nh
  | mutexNewOwned nh i _ ih => exact ih.mutexNewOwned nh i
  | mutexTook m i _ hm hf ih => exact ih.mutexTook m i hm hf
  | mutexGave m i _ hm ih => exact ih.mutexGave m i hm
  | semNew initial max nh _ ih => exact ih.semNew initial max nh
  | semPosted i n _ hi hn hm ih => exact ih.semPosted i n hi hn hm
  | semDowned i _ hi ih => exact ih.semDowned i hi

theorem Acts.notes (h : Acts safe done o ns o₁)
    (hp : ∀ n ∈ ns₁, n.onLock = false ∧ n.onSem = false) : Acts safe done o (ns₁ ++ ns) o₁ := by
  induction ns₁ with
  | nil => exact h
  | cons n ns₁ ih =>
      have hn := hp n List.mem_cons_self
      exact (ih fun m hm => hp m (List.mem_cons_of_mem n hm)).note n hn.1 hn.2

/-! #### Acquiring through handles -/

theorem handleAcquire_idx (o : Objs) (h i : ℕ) :
    (o.handleAcquire h i).mutexIdx = o.mutexIdx ∧ (o.handleAcquire h i).semIdx = o.semIdx ∧
      (o.handleAcquire h i).eventIdx = o.eventIdx := by
  unfold Objs.handleAcquire
  split
  · split <;> exact ⟨rfl, rfl, rfl⟩
  · split
    · exact ⟨rfl, rfl, rfl⟩
    · split
      · split <;> exact ⟨rfl, rfl, rfl⟩
      · exact ⟨rfl, rfl, rfl⟩

theorem acts_handleAcquire (h i : ℕ)
    (hf : safe → ∀ m, o.mutexIdx h = some m → MutexFree done o m i) :
    Acts safe done o (o.acquireNote h i).toList (o.handleAcquire h i) := by
  unfold Objs.handleAcquire Objs.acquireNote
  cases he : o.eventIdx h with
  | some e =>
      rw [mutexIdx_none_of_eventIdx he, semIdx_none_of_eventIdx he]
      show Acts safe done o [] (if _ then _ else _)
      split
      · exact .refl
      · exact Acts.refl.other ⟨rfl, rfl, rfl, rfl, rfl, rfl⟩
  | none =>
      cases hm : o.mutexIdx h with
      | some m => exact Acts.refl.mutexTook m i (handleIdx_lt hm) fun hs => hf hs m hm
      | none =>
          cases hk : o.semIdx h with
          | some k => exact Acts.refl.semDowned k (handleIdx_lt hk)
          | none => exact .refl

theorem MutexFree.acquire {m i : ℕ} (hf : MutexFree done o m i) (h : ℕ) :
    MutexFree done (o.handleAcquire h i) m i := by
  unfold Objs.handleAcquire
  split
  · split
    · exact hf
    · exact hf
  · split
    · rename_i m' _
      unfold MutexFree Objs.setMutex
      by_cases hm : m = m'
      · subst hm
        exact .inr (.inl (by simp))
      · simp only [Function.update_of_ne hm]
        exact hf
    · split
      · split
        · exact hf
        · exact hf
      · exact hf

theorem acts_foldl_acquire (i : ℕ) (hs : List ℕ) (o : Objs)
    (hf : safe → ∀ h ∈ hs, ∀ m, o.mutexIdx h = some m → MutexFree done o m i) :
    Acts safe done o (hs.reverse.filterMap fun h => o.acquireNote h i)
      (hs.foldl (fun o h => o.handleAcquire h i) o) := by
  induction hs generalizing o with
  | nil => exact .refl
  | cons h hs ih =>
      have hidx := handleAcquire_idx o h i
      have h₁ : Acts safe done o _ (o.handleAcquire h i) := acts_handleAcquire h i fun hs' m hm =>
        hf hs' h List.mem_cons_self m hm
      have h₂ := ih (o.handleAcquire h i) fun hs' a ha m hm => by
        rw [hidx.1] at hm
        exact (hf hs' a (List.mem_cons_of_mem h ha) m hm).acquire h
      have hnote : (fun a => (o.handleAcquire h i).acquireNote a i) = fun a => o.acquireNote a i := by
        funext a
        unfold Objs.acquireNote
        rw [hidx.1, hidx.2.1]
      rw [hnote] at h₂
      have h₃ := h₁.trans h₂
      rw [List.reverse_cons, List.filterMap_append]
      have hone : [h].filterMap (fun a => o.acquireNote a i) = (o.acquireNote h i).toList := by
        rw [List.filterMap_cons, List.filterMap_nil]
        cases o.acquireNote h i <;> rfl
      rw [hone]
      exact h₃

end

/-! #### The functions of the runtime -/

section
variable {safe : Prop} {done : ℕ → Bool} (s : Sys)

theorem acts_return {o : Objs} (v : ℕ) {ns : List Note} (h : Acts safe done o ns s.objs) :
    Acts safe done o (s.return_ v ns).2 (s.return_ v ns).1.objs :=
  h.note (.ret s.cur v) rfl rfl

theorem acts_waitTake (s₁ : Sys) (ho : s₁.objs = s.objs) (hs : List ℕ) (all : Bool)
    (hf : safe → ∀ h ∈ hs, ∀ m, s.objs.mutexIdx h = some m →
      (all = false → hs[s₁.waitIdx hs all]? = some h) → MutexFree done s.objs m s₁.cur) :
    Acts safe done s.objs (s₁.waitTake hs all).2 (s₁.waitTake hs all).1.objs := by
  unfold Sys.waitTake
  refine acts_return _ _ (Acts.note (.waited _ _) rfl rfl ?_)
  rw [ho]
  refine acts_foldl_acquire s₁.cur _ s.objs fun hsafe h hh m hm => ?_
  cases all with
  | true => exact hf hsafe h hh m hm nofun
  | false =>
      have hget : hs[s₁.waitIdx hs false]? = some h := by
        simpa [Sys.waitIdx, Option.mem_toList] using hh
      exact hf hsafe h (List.mem_of_getElem? hget) m hm fun _ => hget

theorem acts_waitTimedOut {s₁ : Sys} (ho : s₁.objs = s.objs) :
    Acts safe done s.objs s₁.waitTimedOut.2 s₁.waitTimedOut.1.objs := by
  unfold Sys.waitTimedOut
  refine acts_return _ _ (Acts.note (.waited _ _) rfl rfl ?_)
  show Acts safe done s.objs [] s₁.objs
  rw [ho]
  exact .refl

theorem mutexFree_of_signaled {h i m : ℕ} (hsig : s.handleSignaledFor h i = true)
    (hm : s.objs.mutexIdx h = some m) : MutexFree s.isDone s.objs m i := by
  have hb := handleIdx_base hm
  have ht : s.threadIdx h = none := by
    unfold Sys.threadIdx handleIdx
    rw [if_neg]
    rintro ⟨he, -⟩
    rw [hb] at he
    exact absurd he (by decide)
  unfold Sys.handleSignaledFor at hsig
  rw [ht, eventIdx_none_of_mutexIdx hm, hm] at hsig
  simpa [MutexFree, or_assoc] using hsig

theorem signaled_of_satisfied {s₁ : Sys} (a : s.Alike s₁) {hs : List ℕ} {all : Bool}
    (hsat : s.satisfied s₁.cur hs all = true) {h : ℕ} (hh : h ∈ hs)
    (hidx : all = false → hs[s₁.waitIdx hs all]? = some h) :
    s.handleSignaledFor h s₁.cur = true := by
  cases all with
  | true => exact List.all_eq_true.mp hsat h hh
  | false =>
      have hany : (hs.findIdx? fun h => s₁.handleSignaledFor h s₁.cur).isSome = true := by
        rw [List.findIdx?_isSome]
        simp only [a.signaled]
        exact hsat
      obtain ⟨k, hk⟩ := Option.isSome_iff_exists.mp hany
      obtain ⟨hlt, hsig, -⟩ := List.findIdx?_eq_some_iff_getElem.mp hk
      have hget := hidx rfl
      simp only [Sys.waitIdx, hk, Bool.false_eq_true, if_false, Option.getD_some] at hget
      rw [List.getElem?_eq_getElem hlt] at hget
      cases hget
      rw [← a.signaled]
      exact hsig

theorem acts_wait (src : Handles) (all : Bool) (ms : ℕ) :
    Acts safe s.isDone s.objs (s.wait src all ms).2 (s.wait src all ms).1.objs := by
  have a : s.Alike (s.asking src all) := .of_update rfl rfl rfl Iff.rfl
  have hbase : Acts safe s.isDone s.objs [.wait s.cur (s.handles src) all ms s.vclock] s.objs :=
    Acts.refl.note _ rfl rfl
  rw [wait_eq]
  split
  · rename_i hok
    refine hbase.trans (acts_waitTake s (s.asking src all) rfl _ all fun _ h hh m hm hidx => ?_)
    refine mutexFree_of_signaled s (signaled_of_satisfied s a ?_ hh hidx) hm
    rw [← a.satisfied]
    rw [waitOk_eq_satisfied _ (by rw [asking_fiber]; exact List.ne_nil_of_mem hh),
      asking_fiber] at hok
    exact hok
  · split
    · exact hbase.trans (acts_waitTimedOut s rfl)
    · exact hbase

theorem acts_sleep (ms : ℕ) : Acts safe done s.objs (s.sleep ms).2 (s.sleep ms).1.objs := by
  unfold Sys.sleep
  split
  · exact acts_return s 0 .refl
  · split
    · exact .refl
    · exact Acts.refl.note _ rfl rfl

theorem acts_sleepWoken : Acts safe done s.objs s.sleepWoken.2 s.sleepWoken.1.objs := by
  unfold Sys.sleepWoken
  split
  · exact acts_return _ 0 (Acts.refl.note _ rfl rfl)
  · exact .refl

theorem acts_enterTurn (k : ℕ) :
    Acts safe done s.objs (s.enterTurn k).2 (s.enterTurn k).1.objs := by
  unfold Sys.enterTurn
  cases he : s.objs.csTake k s.cur with
  | some o => exact acts_return _ 0 (Acts.refl.csTook k s.cur he)
  | none => exact .refl

theorem acts_enterCs (k : ℕ) : Acts safe done s.objs (s.enterCs k).2 (s.enterCs k).1.objs := by
  unfold Sys.enterCs
  cases he : s.objs.csEnsure k with
  | some o =>
      have hnew : Acts safe done s.objs [] o := Acts.refl.csNew he
      have h := hnew.trans (acts_enterTurn { s with objs := o } k)
      rwa [List.append_nil] at h
  | none => exact .refl

theorem acts_enterWoken (k : ℕ) :
    Acts safe done s.objs (s.enterWoken k).2 (s.enterWoken k).1.objs := by
  unfold Sys.enterWoken
  dsimp only
  split
  · exact acts_enterTurn (s.setMe { s.me with waitCs := 0 }) k
  · exact acts_return _ 0 .refl

theorem acts_tryEnterCs (k : ℕ) :
    Acts safe done s.objs (s.tryEnterCs k).2 (s.tryEnterCs k).1.objs := by
  unfold Sys.tryEnterCs
  cases he : s.objs.csEnsure k with
  | some o =>
      dsimp only
      cases ht : o.csTake k s.cur with
      | some o' => exact acts_return _ 1 ((Acts.refl.csNew he).csTook k s.cur ht)
      | none => exact acts_return _ 0 (Acts.refl.csNew he)
  | none => exact .refl

theorem acts_srwTake (k : ℕ) (excl : Bool) (v : ℕ) {ns : List Note}
    (hns : ∀ n ∈ ns, n.onLock = false ∧ n.onSem = false)
    (ha : s.objs.srwAcquirable k excl s.cur = true) :
    Acts safe done s.objs (s.srwTake k excl v ns).2 (s.srwTake k excl v ns).1.objs := by
  unfold Sys.srwTake
  cases he : s.objs.srwTake k excl s.cur with
  | some o => exact acts_return _ v ((Acts.refl.srwTook k excl s.cur ha he).notes hns)
  | none => exact .refl

theorem acts_srwTurn (k : ℕ) (excl : Bool) (c : Cont) (v : ℕ) {ns : List Note}
    (hns : ∀ n ∈ ns, n.onLock = false ∧ n.onSem = false) :
    Acts safe done s.objs (s.srwTurn k excl c v ns).2 (s.srwTurn k excl c v ns).1.objs := by
  unfold Sys.srwTurn
  split
  · rename_i ha
    exact acts_srwTake s k excl v hns ha
  · exact .refl

theorem acts_tryAcquireSrw (k : ℕ) (excl : Bool) :
    Acts safe done s.objs (s.tryAcquireSrw k excl).2 (s.tryAcquireSrw k excl).1.objs := by
  unfold Sys.tryAcquireSrw
  split
  · rename_i ha
    exact acts_srwTake s k excl 1 nofun ha
  · exact acts_return s 0 .refl

theorem acts_reacquireTurn (lock : ℕ) (isCs shared : Bool) (ret : ℕ) :
    Acts safe done s.objs (s.reacquireTurn lock isCs shared ret).2
      (s.reacquireTurn lock isCs shared ret).1.objs := by
  unfold Sys.reacquireTurn
  split
  · cases he : s.objs.csEnsure lock with
    | some o =>
        dsimp only
        cases ht : o.csTake lock s.cur with
        | some o' =>
            exact acts_return _ ret
              (((Acts.refl.csNew he).csTook lock s.cur ht).note _ rfl rfl)
        | none => exact Acts.refl.csNew he
    | none => exact .refl
  · refine acts_srwTurn s lock _ _ ret ?_
    intro n hn
    rw [List.mem_singleton.mp hn]
    exact ⟨rfl, rfl⟩

theorem acts_cvLeave {o : Objs} (cv lock : ℕ) (isCs shared granted : Bool) {ns : List Note}
    (h : Acts safe done o ns s.objs) :
    Acts safe done o (s.cvLeave cv lock isCs shared granted ns).2
      (s.cvLeave cv lock isCs shared granted ns).1.objs := by
  unfold Sys.cvLeave
  have hobjs : (if granted then s else { s with lastError := waitTimeout } : Sys).objs =
      s.objs := by
    split <;> rfl
  have h₁ := h.note (.cvWoken s.cur cv granted) rfl rfl
  rw [← hobjs] at h₁
  exact h₁.trans (acts_reacquireTurn _ lock isCs shared (if granted then 1 else 0))

theorem sameLocks_cvEnsure {o o' : Objs} {k : ℕ} (h : o.cvEnsure k = some o') :
    o.SameLocks o' := by
  unfold Objs.cvEnsure at h
  split at h
  · cases h
    exact ⟨rfl, rfl, rfl, rfl, rfl, rfl⟩
  · split at h
    · cases h
    · cases h
      exact ⟨rfl, rfl, rfl, rfl, rfl, rfl⟩

theorem acts_cvRelease (lock : ℕ) (isCs shared : Bool) :
    Acts safe done s.objs (s.cvRelease lock isCs shared).2
      (s.cvRelease lock isCs shared).1.objs := by
  unfold Sys.cvRelease
  split
  · exact Acts.refl.csDropped lock
  · exact Acts.refl.srwGave lock (!shared) s.cur

theorem acts_condvarSleep (cv lock : ℕ) (isCs shared : Bool) (ms : ℕ) :
    Acts safe done s.objs (s.condvarSleep cv lock isCs shared ms).2
      (s.condvarSleep cv lock isCs shared ms).1.objs := by
  unfold Sys.condvarSleep
  cases he : s.objs.cvEnsure cv with
  | none => exact .refl
  | some o =>
      have hsleep : Acts safe done s.objs [.cvSleep s.cur cv lock isCs shared ms] o :=
        (Acts.refl.other (sameLocks_cvEnsure he)).note _ rfl rfl
      have h := hsleep.trans (acts_cvRelease { s with objs := o } lock isCs shared)
      dsimp only
      split
      · exact acts_cvLeave _ cv lock isCs shared false h
      · exact h

theorem acts_cvSleepWoken (cv lock : ℕ) (isCs shared : Bool) :
    Acts safe done s.objs (s.cvSleepWoken cv lock isCs shared).2
      (s.cvSleepWoken cv lock isCs shared).1.objs := by
  unfold Sys.cvSleepWoken
  dsimp only
  split
  · exact acts_cvLeave _ cv lock isCs shared true
      (Acts.refl.other ⟨rfl, rfl, rfl, rfl, rfl, rfl⟩)
  · split
    · exact acts_cvLeave _ cv lock isCs shared false .refl
    · exact .refl

theorem acts_wake (cv : ℕ) (all : Bool) :
    Acts safe done s.objs (s.wake cv all).2 (s.wake cv all).1.objs := by
  unfold Sys.wake
  cases he : s.objs.cvEnsure cv with
  | none => exact .refl
  | some o =>
      have h : Acts safe done s.objs [] o := Acts.refl.other (sameLocks_cvEnsure he)
      refine acts_return _ 0 (Acts.note _ rfl rfl (h.other ?_))
      exact ⟨rfl, rfl, rfl, rfl, rfl, rfl⟩

theorem acts_waitWoken {src : Handles} {all : Bool} (hc : s.me.cont = .wait src all)
    (hr : s.me.Right)
    (hk : safe → s.waitOk s.cur = true → (s.handles src).take 64 = s.me.waitH) :
    Acts safe s.isDone s.objs (s.waitWoken src all).2 (s.waitWoken src all).1.objs := by
  have a : s.Alike (s.setMe { s.me with hasTimeout := false }) := .of_update rfl rfl rfl Iff.rfl
  unfold Sys.waitWoken
  dsimp only
  split
  · rename_i hok
    refine acts_waitTake s (s.setMe { s.me with hasTimeout := false }) rfl _ all
      fun hsafe h hh m hm hidx => ?_
    refine mutexFree_of_signaled s (signaled_of_satisfied s a ?_ hh hidx) hm
    have hread : ((s.setMe { s.me with hasTimeout := false }).handles src).take 64 = s.me.waitH :=
      hk hsafe hok
    rw [hread] at hh ⊢
    have hall : (s.fiber s.cur).waitAll = all := hr src all hc
    rw [waitOk_eq_satisfied s (List.ne_nil_of_mem hh), hall] at hok
    exact hok
  · split
    · exact acts_waitTimedOut s rfl
    · exact .refl

theorem acts_call (c : Call) : Acts safe s.isDone s.objs (s.call c).2 (s.call c).1.objs := by
  cases c with
  | store a b => exact .refl
  | setLastError e => exact acts_return _ 0 .refl
  | returnThread code =>
      show Acts _ _ _ (s.returnThread code).2 (s.returnThread code).1.objs
      unfold Sys.returnThread
      split
      · exact .refl
      · exact Acts.refl.note _ rfl rfl
  | createThread suspended pTid =>
      show Acts _ _ _ (s.spawn suspended pTid).2 (s.spawn suspended pTid).1.objs
      unfold Sys.spawn
      split
      · exact acts_return _ 0 .refl
      · refine acts_return _ _ ?_
        split <;> exact .refl
  | resumeThread h =>
      show Acts _ _ _ (s.resumeThread h).2 (s.resumeThread h).1.objs
      unfold Sys.resumeThread
      split
      · split
        · exact acts_return _ 1 .refl
        · exact acts_return _ 0 .refl
      · exact acts_return _ _ .refl
  | exitThread code =>
      show Acts _ _ _ (s.exitThread code).2 (s.exitThread code).1.objs
      unfold Sys.exitThread
      split
      · exact .refl
      · exact Acts.refl.note _ rfl rfl
  | terminateThread h code =>
      show Acts _ _ _ (s.terminateThread h code).2 (s.terminateThread h code).1.objs
      unfold Sys.terminateThread Sys.exitThread
      split
      · split
        · split
          · exact .refl
          · exact Acts.refl.note _ rfl rfl
        · exact acts_return _ 1 (Acts.refl.note _ rfl rfl)
      · exact acts_return _ 0 .refl
  | getExitCodeThread h out =>
      show Acts _ _ _ (s.getExitCodeThread h out).2 (s.getExitCodeThread h out).1.objs
      unfold Sys.getExitCodeThread
      split
      · refine acts_return _ 1 ?_
        split <;> exact .refl
      · refine acts_return _ 0 ?_
        split <;> exact .refl
  | sleep ms => exact acts_sleep s ms
  | waitForSingleObject h ms =>
      show Acts _ _ _ (s.waitForSingleObject h ms).2 (s.waitForSingleObject h ms).1.objs
      unfold Sys.waitForSingleObject
      split
      · exact acts_wait s _ _ _
      · exact acts_return _ 0 .refl
  | waitForMultipleObjects n ph all ms =>
      show Acts _ _ _ (s.waitForMultipleObjects n ph all ms).2
        (s.waitForMultipleObjects n ph all ms).1.objs
      unfold Sys.waitForMultipleObjects
      split
      · exact acts_return _ 0 .refl
      · split
        · exact acts_wait s _ _ _
        · exact acts_return _ 0 .refl
  | createEvent manual initial nh =>
      show Acts _ _ _ (s.createEvent manual initial nh).2 (s.createEvent manual initial nh).1.objs
      unfold Sys.createEvent
      split
      · exact acts_return _ _ .refl
      · split
        · exact acts_return _ _ .refl
        · exact acts_return _ _ (Acts.refl.other ⟨rfl, rfl, rfl, rfl, rfl, rfl⟩)
  | setEvent h =>
      show Acts _ _ _ (s.setEvent h true).2 (s.setEvent h true).1.objs
      unfold Sys.setEvent
      split
      · exact acts_return _ _ (Acts.refl.other ⟨rfl, rfl, rfl, rfl, rfl, rfl⟩)
      · exact acts_return _ _ .refl
  | resetEvent h =>
      show Acts _ _ _ (s.setEvent h false).2 (s.setEvent h false).1.objs
      unfold Sys.setEvent
      split
      · exact acts_return _ _ (Acts.refl.other ⟨rfl, rfl, rfl, rfl, rfl, rfl⟩)
      · exact acts_return _ _ .refl
  | createMutex initialOwner nh =>
      show Acts _ _ _ (s.createMutex initialOwner nh).2 (s.createMutex initialOwner nh).1.objs
      unfold Sys.createMutex
      split
      · exact acts_return _ _ .refl
      · split
        · exact acts_return _ _ .refl
        · cases initialOwner with
          | true => exact acts_return _ _ (Acts.refl.mutexNewOwned nh s.cur)
          | false => exact acts_return _ _ (Acts.refl.mutexNew nh)
  | openMutex nh =>
      show Acts _ _ _ (s.openMutex nh).2 (s.openMutex nh).1.objs
      unfold Sys.openMutex
      split <;> exact acts_return _ _ .refl
  | releaseMutex h =>
      show Acts _ _ _ (s.releaseMutex h).2 (s.releaseMutex h).1.objs
      unfold Sys.releaseMutex
      split
      · rename_i i hi
        exact acts_return _ _ (Acts.refl.mutexGave i s.cur (handleIdx_lt hi))
      · exact acts_return _ _ .refl
  | createSemaphore initial max nh =>
      show Acts _ _ _ (s.createSemaphore (int32 initial) (int32 max) nh).2
        (s.createSemaphore (int32 initial) (int32 max) nh).1.objs
      unfold Sys.createSemaphore
      split
      · exact acts_return _ _ .refl
      · split
        · exact acts_return _ _ .refl
        · exact acts_return _ _ (Acts.refl.semNew _ _ nh)
  | openSemaphore nh =>
      show Acts _ _ _ (s.openSemaphore nh).2 (s.openSemaphore nh).1.objs
      unfold Sys.openSemaphore
      split <;> exact acts_return _ _ .refl
  | releaseSemaphore h rel pPrev =>
      show Acts _ _ _ (s.releaseSemaphore h (int32 rel) pPrev).2
        (s.releaseSemaphore h (int32 rel) pPrev).1.objs
      unfold Sys.releaseSemaphore
      split
      · rename_i i hi
        dsimp only
        split
        · exact acts_return _ _ .refl
        · rename_i hc
          rw [not_or, not_le, not_lt] at hc
          exact acts_return _ _ (Acts.refl.semPosted i (int32 rel) (handleIdx_lt hi) hc.1 hc.2)
      · exact acts_return _ _ .refl
  | initializeCriticalSection k =>
      show Acts _ _ _ (s.ensure (s.objs.csEnsure k)).2 (s.ensure (s.objs.csEnsure k)).1.objs
      cases he : s.objs.csEnsure k with
      | some o => exact acts_return _ 0 (Acts.refl.csNew he)
      | none => exact .refl
  | deleteCriticalSection k => exact acts_return _ 0 (Acts.refl.csDeleted k)
  | enterCriticalSection k => exact acts_enterCs s k
  | tryEnterCriticalSection k => exact acts_tryEnterCs s k
  | leaveCriticalSection k => exact acts_return _ 0 (Acts.refl.csGave k s.cur)
  | initializeSRWLock k =>
      show Acts _ _ _ (s.ensure (s.objs.srwEnsure k)).2 (s.ensure (s.objs.srwEnsure k)).1.objs
      cases he : s.objs.srwEnsure k with
      | some o => exact acts_return _ 0 (Acts.refl.srwNew he)
      | none => exact .refl
  | acquireSRWLock k excl => exact acts_srwTurn s k excl _ 0 nofun
  | releaseSRWLock k excl => exact acts_return _ 0 (Acts.refl.srwGave k excl s.cur)
  | tryAcquireSRWLock k excl => exact acts_tryAcquireSrw s k excl
  | initializeConditionVariable k =>
      show Acts _ _ _ (s.ensure (s.objs.cvEnsure k)).2 (s.ensure (s.objs.cvEnsure k)).1.objs
      cases he : s.objs.cvEnsure k with
      | some o => exact acts_return _ 0 (Acts.refl.other (sameLocks_cvEnsure he))
      | none => exact .refl
  | wakeConditionVariable k => exact acts_wake s k false
  | wakeAllConditionVariable k => exact acts_wake s k true
  | sleepConditionVariableSRW cv lock ms shared => exact acts_condvarSleep s cv lock false shared ms
  | sleepConditionVariableCS cv lock ms => exact acts_condvarSleep s cv lock true false ms

theorem acts_resume (hr : s.me.Right)
    (hk : ∀ src all, s.me.cont = .wait src all → safe → s.waitOk s.cur = true →
      (s.handles src).take 64 = s.me.waitH) :
    Acts safe s.isDone s.objs s.resume.2 s.resume.1.objs := by
  unfold Sys.resume
  split
  · exact .refl
  · rename_i src all hc
    exact acts_waitWoken s hc hr (hk src all hc)
  · exact acts_sleepWoken s
  · exact acts_enterWoken s _
  · exact acts_srwTurn (s.setMe { s.me with waitSrw := 0 }) _ _ _ 0 nofun
  · exact acts_cvSleepWoken s _ _ _ _
  · exact acts_reacquireTurn (s.setMe { s.me with waitCs := 0, waitSrw := 0 }) _ _ _ _

end

/-- When the wait of fiber `i` is about to return, the array it reads still holds the handles that
were passed. -/
def ArrayKept (s : Sys) (i : ℕ) : Prop :=
  match (s.fiber i).cont with
  | .wait src _ => s.waitOk i = true → (s.handles src).take 64 = (s.fiber i).waitH
  | _ => True

def ArraysKept (_ : List Note) (s : Sys) : Label → Prop
  | .call _ => True
  | .turn => ∀ i ∈ s.wakeRunnable.pick, ArrayKept s i

theorem step_acts {t ns : List Note} {s s' : Sys} {l : Label} (h : Shape t s)
    (hs : s.step l = some (s', ns)) : Acts (ArraysKept t s l) s.isDone s.objs ns s'.objs := by
  rcases step_cases hs with ⟨c, rfl, hm, hr⟩ | ⟨rfl, hm, hr⟩
  · have hk : Acts (ArraysKept t s (.call c)) s.isDone s.objs _ _ := acts_call s c
    rw [hr] at hk
    exact hk
  · cases hp : s.wakeRunnable.pick with
    | some i =>
        obtain ⟨-, hready⟩ := pick_some hp
        rw [turn_of_pick hp] at hr
        have a : s.Alike (s.wakeRunnable.switchTo i) :=
          (wakeRunnable_alike s).trans (switchTo_alike hready)
        have hcw := wakeRunnable_cont s i
        have hme := switchTo_me s.wakeRunnable i
        have hright : (s.wakeRunnable.switchTo i).me.Right := by
          rw [hme]
          exact (h.wakeRunnable hm).right i
        have hdone : (s.wakeRunnable.switchTo i).isDone = s.isDone := funext a.isDone
        have hk : Acts (ArraysKept t s .turn) _ _ _ _ := acts_resume (s.wakeRunnable.switchTo i) hright
          (fun src all hc hsafe hok => by
            have hkept := hsafe i hp
            unfold ArrayKept at hkept
            rw [hme] at hc
            rw [← hcw.1, show (s.wakeRunnable.fiber i).cont = .wait src all from hc] at hkept
            have hf : (s.wakeRunnable.switchTo i).fiber i =
                { s.wakeRunnable.fiber i with state := .running } := hme
            have hok' : s.waitOk i = true := by
              rw [← a.waitOk (by rw [hf]; exact hcw.2.1) (by rw [hf]; exact hcw.2.2)]
              exact hok
            rw [hme]
            exact (hkept hok').trans hcw.2.1.symm)
        rw [hr, hdone] at hk
        exact hk
    | none =>
        rw [turn_of_none hp] at hr
        split at hr <;> (cases hr; exact .refl)

/-! ### What each operation leaves alone -/

section
variable (o o' : Objs)

def OnlyCs : Prop := o' = { o with cs := o'.cs, ncs := o'.ncs }
def OnlySrw : Prop := o' = { o with srw := o'.srw, nsrw := o'.nsrw }
def OnlyMutex : Prop := o' = { o with mutex := o'.mutex, nmutex := o'.nmutex }

end

section
variable {o o' : Objs} {k i : ℕ}

theorem only_csEnsure (h : o.csEnsure k = some o') : OnlyCs o o' := by
  unfold Objs.csEnsure at h
  split at h
  · cases h
    rfl
  · split at h
    · cases h
    · cases h
      rfl

theorem only_csTake (h : o.csTake k i = some o') : OnlyCs o o' := by
  unfold Objs.csTake at h
  split at h
  · split at h
    · cases h
      rfl
    · cases h
  · cases h

theorem only_csLeave (o : Objs) (k i : ℕ) : OnlyCs o (o.csLeave k i) := by
  unfold Objs.csLeave
  split
  · split <;> rfl
  · rfl

theorem only_csDelete (o : Objs) (k : ℕ) : OnlyCs o (o.csDelete k) := by
  unfold Objs.csDelete
  split <;> rfl

theorem only_csDrop (o : Objs) (k : ℕ) : OnlyCs o (o.csDrop k) := by
  unfold Objs.csDrop
  split <;> rfl

theorem only_srwEnsure (h : o.srwEnsure k = some o') : OnlySrw o o' := by
  unfold Objs.srwEnsure at h
  split at h
  · cases h
    rfl
  · split at h
    · cases h
    · cases h
      rfl

theorem only_srwTake {excl : Bool} (h : o.srwTake k excl i = some o') : OnlySrw o o' := by
  unfold Objs.srwTake at h
  split at h
  · rename_i o₁ he
    split at h
    · cases h
      have := only_srwEnsure he
      unfold OnlySrw at this ⊢
      rw [this]
      rfl
    · cases h
  · cases h

theorem only_srwRelease (o : Objs) (k : ℕ) (excl : Bool) (i : ℕ) :
    OnlySrw o (o.srwRelease k excl i) := by
  unfold Objs.srwRelease
  split
  · split
    · split <;> rfl
    · split <;> rfl
  · rfl

theorem only_mutexRelease (o : Objs) (m i : ℕ) : OnlyMutex o (o.mutexRelease m i) := by
  unfold Objs.mutexRelease
  dsimp only
  split <;> rfl

end

/-! ### Critical sections -/

def Objs.csSlot (o : Objs) (k : ℕ) : CsSlot := (o.cs k).getD ⟨0, 0⟩

section
variable {o o' : Objs} {k i : ℕ}

theorem csSlot_setCs (o : Objs) (k k' : ℕ) (c : CsSlot) :
    (o.setCs k c).csSlot k' = if k' = k then c else o.csSlot k' := by
  show (Function.update o.cs k (some c) k').getD _ = _
  rw [Function.update_apply]
  split <;> rfl

theorem csSlot_csEnsure (h : o.csEnsure k = some o') (k' : ℕ) : o'.csSlot k' = o.csSlot k' := by
  unfold Objs.csEnsure at h
  split at h
  · cases h
    rfl
  · rename_i hn
    split at h
    · cases h
    · cases h
      show (o.setCs k ⟨0, 0⟩).csSlot k' = _
      rw [csSlot_setCs]
      split
      · rename_i he
        rw [he, Objs.csSlot, hn]
        rfl
      · rfl

theorem csSlot_csTake (h : o.csTake k i = some o') (k' : ℕ) :
    ((o.csSlot k).owner = 0 ∨ (o.csSlot k).owner = i + 1) ∧ o'.csSlot k' =
      if k' = k then ⟨i + 1, int32 ((o.csSlot k).depth + 1)⟩ else o.csSlot k' := by
  unfold Objs.csTake at h
  split at h
  · rename_i c hc
    have hslot : o.csSlot k = c := by
      rw [Objs.csSlot, hc]
      rfl
    split at h
    · rename_i hw
      cases h
      rw [hslot, csSlot_setCs]
      exact ⟨hw, rfl⟩
    · cases h
  · cases h

theorem csSlot_csLeave (o : Objs) (k i k' : ℕ) : (o.csLeave k i).csSlot k' =
    if k' = k ∧ (o.csSlot k).owner = i + 1 ∧ 0 < (o.csSlot k).depth then
      ⟨if (o.csSlot k).depth - 1 = 0 then 0 else (o.csSlot k).owner, (o.csSlot k).depth - 1⟩
    else o.csSlot k' := by
  unfold Objs.csLeave
  split
  · rename_i c hc
    have hslot : o.csSlot k = c := by
      rw [Objs.csSlot, hc]
      rfl
    rw [hslot]
    by_cases hw : c.owner = i + 1 ∧ 0 < c.depth
    · rw [if_pos hw, csSlot_setCs]
      by_cases hk : k' = k
      · rw [if_pos hk, if_pos (show k' = k ∧ _ from ⟨hk, hw⟩)]
      · rw [if_neg hk, if_neg fun h => hk h.1]
    · rw [if_neg hw, if_neg fun h => hw h.2]
  · rename_i hn
    have hslot : o.csSlot k = ⟨0, 0⟩ := by
      rw [Objs.csSlot, hn]
      rfl
    rw [hslot, if_neg]
    rintro ⟨-, hw, -⟩
    cases hw

theorem csSlot_csDelete (o : Objs) (k k' : ℕ) :
    (o.csDelete k).csSlot k' = if k' = k then ⟨0, 0⟩ else o.csSlot k' := by
  unfold Objs.csDelete Objs.csSlot
  split
  · show (Function.update o.cs k none k').getD _ = _
    rw [Function.update_apply]
    split <;> rfl
  · rename_i hn
    split
    · rename_i hk
      rw [hk, hn]
      rfl
    · rfl

theorem csSlot_csDrop (o : Objs) (k k' : ℕ) :
    (o.csDrop k).csSlot k' = if k' = k then ⟨0, 0⟩ else o.csSlot k' := by
  unfold Objs.csDrop
  split
  · exact csSlot_setCs ..
  · rename_i hn
    split
    · rename_i hk
      rw [hk, Objs.csSlot, hn]
      rfl
    · rfl

end

def CsHeld (o : Objs) (t : List Note) (k : ℕ) : Prop :=
  Owned (o.csSlot k).owner (o.csSlot k).depth (holders (.cs k) t)

theorem CsHeld.congr {o o' : Objs} {t t' : List Note} {k : ℕ} (h : CsHeld o t k)
    (ho : o'.csSlot k = o.csSlot k) (ht : holders (.cs k) t' = holders (.cs k) t) :
    CsHeld o' t' k := by
  unfold CsHeld
  rw [ho, ht]
  exact h

theorem csSlot_eq_of_cs {o o' : Objs} (h : o'.cs = o.cs) (k : ℕ) : o'.csSlot k = o.csSlot k := by
  unfold Objs.csSlot
  rw [h]

theorem acts_csHeld {safe : Prop} {done : ℕ → Bool} {o o' : Objs} {ns t : List Note} (k : ℕ)
    (ha : Acts safe done o ns o') (h : CsHeld o t k) (hb : Bounded (.cs k) (ns ++ t)) :
    CsHeld o' (ns ++ t) k := by
  induction ha with
  | refl => exact h
  | note n hl _ _ ih => exact (ih hb.tail).congr rfl (holders_cons_other _ hl)
  | other _ hsame ih => exact (ih hb).congr (csSlot_eq_of_cs hsame.cs k) rfl
  | csNew _ he ih => exact (ih hb).congr (csSlot_csEnsure he k) rfl
  | csTook k' i _ he ih =>
      have hc := ih hb.tail
      obtain ⟨hw, hslot⟩ := csSlot_csTake he k
      by_cases hk : k' = k
      · subst hk
        have hlen := hb.1
        unfold CsHeld at hc ⊢
        rw [if_pos rfl] at hslot
        rw [hslot, List.cons_append, holders_took]
        refine hc.take hw ?_
        rw [← holders_took]
        exact hlen
      · rw [if_neg (Ne.symm hk)] at hslot
        refine hc.congr hslot (if_neg ?_)
        rintro e
        cases e
        exact hk rfl
  | @csGave ns₁ o₁ k' i _ ih =>
      have hc := ih hb.tail
      have hslot := csSlot_csLeave o₁ k' i k
      by_cases hk : k' = k
      · subst hk
        unfold CsHeld at hc ⊢
        rw [List.cons_append, holders_gave, hslot]
        split
        · rename_i hw
          exact (hc.release hw.2.1).2
        · rename_i hw
          rw [hc.erase_other]
          · exact hc
          · intro e
            exact hw ⟨rfl, e, (hc.release e).1⟩
      · rw [if_neg fun e => hk e.1.symm] at hslot
        refine hc.congr hslot (if_neg ?_)
        rintro e
        cases e
        exact hk rfl
  | @csDeleted ns₁ o₁ k' _ ih =>
      have hc := ih hb.tail
      have hslot := csSlot_csDelete o₁ k' k
      by_cases hk : k' = k
      · subst hk
        unfold CsHeld
        rw [List.cons_append, holders_dropped, hslot, if_pos rfl]
        exact .free
      · rw [if_neg (Ne.symm hk)] at hslot
        refine hc.congr hslot (if_neg ?_)
        rintro e
        cases e
        exact hk rfl
  | @csDropped ns₁ o₁ k' _ ih =>
      have hc := ih hb.tail
      have hslot := csSlot_csDrop o₁ k' k
      by_cases hk : k' = k
      · subst hk
        unfold CsHeld
        rw [List.cons_append, holders_dropped, hslot, if_pos rfl]
        exact .free
      · rw [if_neg (Ne.symm hk)] at hslot
        refine hc.congr hslot (if_neg ?_)
        rintro e
        cases e
        exact hk rfl
  | srwNew _ he ih =>
      exact (ih hb).congr (csSlot_eq_of_cs (by rw [only_srwEnsure he]) k) rfl
  | srwTook k' excl i _ _ he ih =>
      exact (ih hb.tail).congr (csSlot_eq_of_cs (by rw [only_srwTake he]) k) (if_neg nofun)
  | srwGave k' excl i _ ih =>
      exact (ih hb.tail).congr (csSlot_eq_of_cs (by rw [only_srwRelease]) k) (if_neg nofun)
  | mutexNew nh _ ih => exact (ih hb).congr rfl rfl
  | mutexNewOwned nh i _ ih => exact (ih hb.tail).congr rfl (if_neg nofun)
  | mutexTook m i _ _ _ ih => exact (ih hb.tail).congr rfl (if_neg nofun)
  | mutexGave m i _ _ ih =>
      exact (ih hb.tail).congr (csSlot_eq_of_cs (by rw [only_mutexRelease]) k) (if_neg nofun)
  | semNew initial max nh _ ih => exact (ih hb.tail).congr rfl rfl
  | semPosted i n _ _ _ _ ih => exact (ih hb.tail).congr rfl rfl
  | semDowned i _ _ ih =>
      refine (ih hb.tail).congr (csSlot_eq_of_cs ?_ k) rfl
      split <;> rfl

/-! ### SRW locks -/

def Objs.srwSlot (o : Objs) (k : ℕ) : SrwSlot := (o.srw k).getD ⟨0, 0⟩

theorem srwSlot_eq_of_srw {o o' : Objs} (h : o'.srw = o.srw) (k : ℕ) :
    o'.srwSlot k = o.srwSlot k := by
  unfold Objs.srwSlot
  rw [h]

theorem srwSlot_setSrw (o : Objs) (k k' : ℕ) (l : SrwSlot) :
    (o.setSrw k l).srwSlot k' = if k' = k then l else o.srwSlot k' := by
  show (Function.update o.srw k (some l) k').getD _ = _
  rw [Function.update_apply]
  split <;> rfl

theorem srwSlot_srwEnsure {o o' : Objs} {k : ℕ} (h : o.srwEnsure k = some o') (k' : ℕ) :
    o'.srwSlot k' = o.srwSlot k' := by
  unfold Objs.srwEnsure at h
  split at h
  · cases h
    rfl
  · rename_i hn
    split at h
    · cases h
    · cases h
      show (o.setSrw k ⟨0, 0⟩).srwSlot k' = _
      rw [srwSlot_setSrw]
      split
      · rename_i he
        rw [he, Objs.srwSlot, hn]
        rfl
      · rfl

theorem srwAcquirable_iff (o : Objs) (k : ℕ) (excl : Bool) (i : ℕ) :
    o.srwAcquirable k excl i = true ↔
      if excl then (o.srwSlot k).writer = 0 ∧ (o.srwSlot k).readers = 0
      else (o.srwSlot k).writer = 0 ∨ (o.srwSlot k).writer = i + 1 := by
  unfold Objs.srwAcquirable Objs.srwSlot
  cases o.srw k <;> cases excl <;> simp

theorem srwSlot_srwTake {o o' : Objs} {k i : ℕ} {excl : Bool}
    (h : o.srwTake k excl i = some o') (k' : ℕ) : o'.srwSlot k' =
      if k' = k then
        if excl then ⟨i + 1, (o.srwSlot k).readers⟩
        else ⟨(o.srwSlot k).writer, int32 ((o.srwSlot k).readers + 1)⟩
      else o.srwSlot k' := by
  unfold Objs.srwTake at h
  split at h
  · rename_i o₁ he
    split at h
    · rename_i l hl
      cases h
      have hslot : o₁.srwSlot k = l := by
        rw [Objs.srwSlot, hl]
        rfl
      rw [srwSlot_setSrw, ← srwSlot_srwEnsure he k, hslot, srwSlot_srwEnsure he k']
    · cases h
  · cases h

theorem srwSlot_srwRelease (o : Objs) (k : ℕ) (excl : Bool) (i k' : ℕ) :
    (o.srwRelease k excl i).srwSlot k' =
      if k' = k then
        if excl then
          ⟨if (o.srwSlot k).writer = i + 1 then 0 else (o.srwSlot k).writer,
            (o.srwSlot k).readers⟩
        else
          ⟨(o.srwSlot k).writer, if 0 < (o.srwSlot k).readers then (o.srwSlot k).readers - 1
            else (o.srwSlot k).readers⟩
      else o.srwSlot k' := by
  unfold Objs.srwRelease
  split
  · rename_i l hl
    have hslot : o.srwSlot k = l := by
      rw [Objs.srwSlot, hl]
      rfl
    rw [hslot]
    by_cases hk : k' = k
    · subst hk
      rw [if_pos rfl]
      split
      · split
        · rw [srwSlot_setSrw, if_pos rfl]
        · exact hslot
      · split
        · rw [srwSlot_setSrw, if_pos rfl]
        · exact hslot
    · rw [if_neg hk]
      split
      · split
        · rw [srwSlot_setSrw, if_neg hk]
        · rfl
      · split
        · rw [srwSlot_setSrw, if_neg hk]
        · rfl
  · rename_i hn
    have hslot : o.srwSlot k = ⟨0, 0⟩ := by
      rw [Objs.srwSlot, hn]
      rfl
    rw [hslot]
    by_cases hk : k' = k
    · subst hk
      rw [if_pos rfl, hslot]
      cases excl <;> simp
    · rw [if_neg hk]

/-- The entry of an SRW lock agrees with its holders `ws` in exclusive and `rs` in shared mode:
there is no writer, or one, and then all shared holds are its own. -/
structure SrwOwned (l : SrwSlot) (ws rs : List ℕ) : Prop where
  writer : l.writer = 0 ∧ ws = [] ∨ ∃ i, l.writer = i + 1 ∧ ws = [i] ∧ ∀ j ∈ rs, j = i
  readers : l.readers = rs.length

namespace SrwOwned

variable {l : SrwSlot} {ws rs : List ℕ} {i : ℕ}

theorem takeExcl (h : SrwOwned l ws rs) (hw : l.writer = 0) (hr : l.readers = 0) :
    SrwOwned ⟨i + 1, l.readers⟩ (i :: ws) rs := by
  have hrs : rs = [] := by
    have := h.readers
    rw [hr] at this
    exact List.eq_nil_of_length_eq_zero (by omega)
  rcases h.writer with ⟨-, hws⟩ | ⟨j, hj, -⟩
  · refine ⟨.inr ⟨i, rfl, by rw [hws], ?_⟩, h.readers⟩
    rw [hrs]
    exact nofun
  · omega

theorem takeShared (h : SrwOwned l ws rs) (hw : l.writer = 0 ∨ l.writer = i + 1)
    (hb : (i :: rs).length < 2 ^ 31) :
    SrwOwned ⟨l.writer, int32 (l.readers + 1)⟩ ws (i :: rs) := by
  rw [List.length_cons] at hb
  refine ⟨?_, ?_⟩
  · rcases h.writer with hno | ⟨j, hj, hws, hall⟩
    · exact .inl hno
    · refine .inr ⟨j, hj, hws, ?_⟩
      intro a ha
      rcases List.mem_cons.mp ha with rfl | ha
      · omega
      · exact hall a ha
  · rw [h.readers, List.length_cons]
    rw [int32_of_lt] <;> push_cast <;> omega

theorem releaseExcl (h : SrwOwned l ws rs) :
    SrwOwned ⟨if l.writer = i + 1 then 0 else l.writer, l.readers⟩ (ws.erase i) rs := by
  refine ⟨?_, h.readers⟩
  rcases h.writer with ⟨hw, hws⟩ | ⟨j, hj, hws, hall⟩
  · left
    rw [hws, hw]
    exact ⟨by simp, rfl⟩
  · by_cases hi : l.writer = i + 1
    · left
      obtain rfl : j = i := by omega
      rw [hws, if_pos hi]
      exact ⟨rfl, List.erase_cons_head ..⟩
    · right
      have hne : j ≠ i := by omega
      refine ⟨j, by rw [if_neg hi]; exact hj, ?_, hall⟩
      rw [hws, List.erase_of_not_mem (by simpa using hne.symm)]

theorem releaseShared (h : SrwOwned l ws rs) (hi : i ∈ rs) :
    SrwOwned ⟨l.writer, if 0 < l.readers then l.readers - 1 else l.readers⟩ ws (rs.erase i) := by
  have hpos := List.length_pos_of_mem hi
  refine ⟨?_, ?_⟩
  · rcases h.writer with hno | ⟨j, hj, hws, hall⟩
    · exact .inl hno
    · exact .inr ⟨j, hj, hws, fun a ha => hall a (List.mem_of_mem_erase ha)⟩
  · rw [h.readers, if_pos (by omega), List.length_erase_of_mem hi]
    push_cast [Nat.cast_sub (show 1 ≤ rs.length from hpos)]
    rfl

end SrwOwned

def SrwHeld (o : Objs) (t : List Note) (k : ℕ) : Prop :=
  SrwOwned (o.srwSlot k) (holders (.srw k true) t) (holders (.srw k false) t)

theorem SrwHeld.congr {o o' : Objs} {t t' : List Note} {k : ℕ} (h : SrwHeld o t k)
    (ho : o'.srwSlot k = o.srwSlot k) (ht : ∀ e, holders (.srw k e) t' = holders (.srw k e) t) :
    SrwHeld o' t' k := by
  unfold SrwHeld
  rw [ho, ht, ht]
  exact h

theorem acts_srwHeld {safe : Prop} {done : ℕ → Bool} {o o' : Objs} {ns t : List Note} (k : ℕ)
    (ha : Acts safe done o ns o') (h : SrwHeld o t k) (hb : Bounded (.srw k false) (ns ++ t))
    (hr : ReleasedByHolders k (ns ++ t)) : SrwHeld o' (ns ++ t) k := by
  induction ha with
  | refl => exact h
  | note n hl _ _ ih =>
      exact (ih hb.tail hr.tail).congr rfl fun e => holders_cons_other _ hl
  | other _ hsame ih => exact (ih hb hr).congr (srwSlot_eq_of_srw hsame.srw k) fun _ => rfl
  | csNew _ he ih =>
      exact (ih hb hr).congr (srwSlot_eq_of_srw (by rw [only_csEnsure he]) k) fun _ => rfl
  | csTook k' i _ he ih =>
      exact (ih hb.tail hr.tail).congr (srwSlot_eq_of_srw (by rw [only_csTake he]) k)
        fun _ => if_neg nofun
  | csGave k' i _ ih =>
      exact (ih hb.tail hr.tail).congr (srwSlot_eq_of_srw (by rw [only_csLeave]) k)
        fun _ => if_neg nofun
  | csDeleted k' _ ih =>
      exact (ih hb.tail hr.tail).congr (srwSlot_eq_of_srw (by rw [only_csDelete]) k)
        fun _ => if_neg nofun
  | csDropped k' _ ih =>
      exact (ih hb.tail hr.tail).congr (srwSlot_eq_of_srw (by rw [only_csDrop]) k)
        fun _ => if_neg nofun
  | srwNew _ he ih => exact (ih hb hr).congr (srwSlot_srwEnsure he k) fun _ => rfl
  | @srwTook ns₁ o₁ o₂ k' excl i _ hacq he ih =>
      have hc := ih hb.tail hr.tail
      have hslot := srwSlot_srwTake he k
      by_cases hk : k' = k
      · subst hk
        rw [srwAcquirable_iff] at hacq
        rw [if_pos rfl] at hslot
        unfold SrwHeld at hc ⊢
        rw [hslot, List.cons_append]
        cases excl with
        | true =>
            rw [holders_took, show holders (.srw k' false) (.took (.srw k' true) i :: (ns₁ ++ t)) =
              holders (.srw k' false) (ns₁ ++ t) from if_neg nofun]
            exact hc.takeExcl hacq.1 hacq.2
        | false =>
            have hlen := hb.1
            rw [holders_took, show holders (.srw k' true) (.took (.srw k' false) i :: (ns₁ ++ t)) =
              holders (.srw k' true) (ns₁ ++ t) from if_neg nofun]
            refine hc.takeShared hacq ?_
            rw [← holders_took]
            exact hlen
      · rw [if_neg (Ne.symm hk)] at hslot
        refine hc.congr hslot fun e => if_neg ?_
        rintro e
        cases e
        exact hk rfl
  | @srwGave ns₁ o₁ k' excl i _ ih =>
      have hc := ih hb.tail hr.tail
      have hslot := srwSlot_srwRelease o₁ k' excl i k
      by_cases hk : k' = k
      · subst hk
        rw [if_pos rfl] at hslot
        unfold SrwHeld at hc ⊢
        rw [hslot, List.cons_append]
        cases excl with
        | true =>
            rw [holders_gave, show holders (.srw k' false) (.gave (.srw k' true) i :: (ns₁ ++ t)) =
              holders (.srw k' false) (ns₁ ++ t) from if_neg nofun]
            exact hc.releaseExcl
        | false =>
            rw [holders_gave, show holders (.srw k' true) (.gave (.srw k' false) i :: (ns₁ ++ t)) =
              holders (.srw k' true) (ns₁ ++ t) from if_neg nofun]
            exact hc.releaseShared (hr.1 rfl)
      · rw [if_neg (Ne.symm hk)] at hslot
        refine hc.congr hslot fun e => if_neg ?_
        rintro e
        cases e
        exact hk rfl
  | mutexNew nh _ ih => exact (ih hb hr).congr rfl fun _ => rfl
  | mutexNewOwned nh i _ ih => exact (ih hb.tail hr.tail).congr rfl fun _ => if_neg nofun
  | mutexTook m i _ _ _ ih => exact (ih hb.tail hr.tail).congr rfl fun _ => if_neg nofun
  | mutexGave m i _ _ ih =>
      exact (ih hb.tail hr.tail).congr (srwSlot_eq_of_srw (by rw [only_mutexRelease]) k)
        fun _ => if_neg nofun
  | semNew initial max nh _ ih => exact (ih hb.tail hr.tail).congr rfl fun _ => rfl
  | semPosted i n _ _ _ _ ih => exact (ih hb.tail hr.tail).congr rfl fun _ => rfl
  | semDowned i _ _ ih =>
      refine (ih hb.tail hr.tail).congr (srwSlot_eq_of_srw ?_ k) fun _ => rfl
      split <;> rfl

end Aret.Threads
