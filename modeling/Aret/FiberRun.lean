/-
What one step of the fiber scheduler does to the fiber table.

Every call of the running fiber that is not about a critical section, an SRW
lock or a condition variable ends in one of a few ways, whatever objects it
touches (`call_outcome`); a turn of the scheduler resumes a fiber, moves the
clock, or ends.
-/
import Mathlib.Tactic.Ring
import Aret.Fiber

namespace Aret.Threads

namespace Sys

variable (s : Sys)

/-! ### Fields after an update -/

@[simp] theorem setFiber_cur (i : ℕ) (f : Fiber) : (s.setFiber i f).cur = s.cur := rfl
@[simp] theorem setFiber_fiber (i : ℕ) (f : Fiber) :
    (s.setFiber i f).fiber = Function.update s.fiber i f := rfl

@[simp] theorem setMe_cur (f : Fiber) : (s.setMe f).cur = s.cur := rfl
@[simp] theorem setMe_vclock (f : Fiber) : (s.setMe f).vclock = s.vclock := rfl
@[simp] theorem setMe_fiber (f : Fiber) :
    (s.setMe f).fiber = Function.update s.fiber s.cur f := rfl
@[simp] theorem setMe_me (f : Fiber) : (s.setMe f).me = f := by
  simp [me, setMe]

@[simp] theorem return_objs (v : ℕ) (ns : List Note) : (s.return_ v ns).1.objs = s.objs := rfl
@[simp] theorem return_nfiber (v : ℕ) (ns : List Note) :
    (s.return_ v ns).1.nfiber = s.nfiber := rfl
@[simp] theorem return_cur (v : ℕ) (ns : List Note) : (s.return_ v ns).1.cur = s.cur := rfl
@[simp] theorem return_vclock (v : ℕ) (ns : List Note) :
    (s.return_ v ns).1.vclock = s.vclock := rfl
@[simp] theorem return_fiber (v : ℕ) (ns : List Note) : (s.return_ v ns).1.fiber =
    Function.update s.fiber s.cur { s.fiber s.cur with cont := .program } := rfl
@[simp] theorem return_notes (v : ℕ) (ns : List Note) :
    (s.return_ v ns).2 = .ret s.cur v :: ns := rfl

@[simp] theorem toSched_fiber (st : FState) (c : Cont) : (s.toSched st c).fiber =
    Function.update s.fiber s.cur
      { s.me with state := st, lastError := s.lastError, cont := c } := rfl

end Sys

/-! ### Handles -/

theorem handleIdx_lt {base n h i : ℕ} (hi : handleIdx base n h = some i) : i < n := by
  unfold handleIdx at hi
  split at hi
  · rename_i hc
    cases hi
    exact hc.2
  · cases hi

theorem handleIdx_base {base n h i : ℕ} (hi : handleIdx base n h = some i) :
    h / 2 ^ 24 = base / 2 ^ 24 := by
  unfold handleIdx at hi
  split at hi
  · rename_i hc
    exact hc.1
  · cases hi

theorem eventIdx_none_of_mutexIdx {o : Objs} {h k : ℕ} (hk : o.mutexIdx h = some k) :
    o.eventIdx h = none := by
  have hm := handleIdx_base hk
  unfold Objs.eventIdx handleIdx
  rw [if_neg]
  rintro ⟨he, -⟩
  rw [hm] at he
  exact absurd he (by decide)

theorem idx_none_of_semIdx {o : Objs} {h k : ℕ} (hk : o.semIdx h = some k) :
    o.eventIdx h = none ∧ o.mutexIdx h = none := by
  have hm := handleIdx_base hk
  unfold Objs.eventIdx Objs.mutexIdx handleIdx
  constructor
  · rw [if_neg]
    rintro ⟨he, -⟩
    rw [hm] at he
    exact absurd he (by decide)
  · rw [if_neg]
    rintro ⟨he, -⟩
    rw [hm] at he
    exact absurd he (by decide)

theorem mutexIdx_none_of_eventIdx {o : Objs} {h k : ℕ} (hk : o.eventIdx h = some k) :
    o.mutexIdx h = none := by
  cases hm : o.mutexIdx h with
  | none => rfl
  | some m => rw [eventIdx_none_of_mutexIdx hm] at hk; cases hk

theorem semIdx_none_of_eventIdx {o : Objs} {h k : ℕ} (hk : o.eventIdx h = some k) :
    o.semIdx h = none := by
  cases hm : o.semIdx h with
  | none => rfl
  | some m => rw [(idx_none_of_semIdx hm).1] at hk; cases hk

theorem semIdx_none_of_mutexIdx {o : Objs} {h k : ℕ} (hk : o.mutexIdx h = some k) :
    o.semIdx h = none := by
  cases hm : o.semIdx h with
  | none => rfl
  | some m => rw [(idx_none_of_semIdx hm).2] at hk; cases hk

/-! ### The ways in which a call ends -/

/-- The two states agree on the fiber table and the clock. -/
structure Sys.Same (s s1 : Sys) : Prop where
  fiber : s1.fiber = s.fiber
  nfiber : s1.nfiber = s.nfiber
  cur : s1.cur = s.cur
  vclock : s1.vclock = s.vclock

theorem Sys.Same.refl (s : Sys) : s.Same s := ⟨rfl, rfl, rfl, rfl⟩

theorem Sys.Same.poke_unless (s : Sys) (a w : ℕ) : s.Same (if a = 0 then s else s.poke a w) := by
  split
  · exact .refl s
  · exact ⟨rfl, rfl, rfl, rfl⟩

def Note.timed : Note → Bool
  | .wait .. | .waited .. | .sleep .. | .slept .. => true
  | _ => false

def Note.plain : Note → Bool
  | .wait .. | .waited .. | .sleep .. | .slept .. | .ended _ => false
  | _ => true

theorem Note.timed_of_plain {n : Note} (h : n.plain = true) : n.timed = false := by
  cases n <;> first | rfl | cases h

theorem acquireNote_plain {o : Objs} {h i : ℕ} {n : Note} (hn : o.acquireNote h i = some n) :
    n.plain = true := by
  unfold Objs.acquireNote at hn
  split at hn
  · cases hn
    rfl
  · rw [Option.map_eq_some_iff] at hn
    obtain ⟨k, -, rfl⟩ := hn
    rfl

def Call.onLocks : Call → Bool
  | .initializeCriticalSection _ | .deleteCriticalSection _ | .enterCriticalSection _
  | .tryEnterCriticalSection _ | .leaveCriticalSection _ | .initializeSRWLock _
  | .acquireSRWLock .. | .releaseSRWLock .. | .tryAcquireSRWLock ..
  | .initializeConditionVariable _ | .wakeConditionVariable _ | .wakeAllConditionVariable _
  | .sleepConditionVariableSRW .. | .sleepConditionVariableCS .. => true
  | _ => false

/-- A call in which the running fiber may park although it is not on a lock. -/
def Call.blocks : Call → Bool
  | .sleep _ | .waitForSingleObject .. | .waitForMultipleObjects .. => true
  | _ => false

/-- The running fiber stores the wait set of `u32_wait`. -/
def Sys.asking (s : Sys) (src : Handles) (all : Bool) : Sys :=
  s.setMe { s.me with waitH := (s.handles src).take 64, waitAll := all }

theorem asking_fiber (s : Sys) (src : Handles) (all : Bool) : (s.asking src all).fiber s.cur =
    { s.me with waitH := (s.handles src).take 64, waitAll := all } :=
  Function.update_self ..

def Sys.timing (s : Sys) (ms : ℕ) : Sys :=
  s.setMe { s.me with
    hasTimeout := ms != infinite, wakeTime := (s.vclock + ms) % 2 ^ 64, timedOut := false }

theorem wait_eq (s : Sys) (src : Handles) (all : Bool) (ms : ℕ) : s.wait src all ms =
    if (s.asking src all).waitOk s.cur then
      (((s.asking src all).waitTake ((s.handles src).take 64) all).1,
        ((s.asking src all).waitTake ((s.handles src).take 64) all).2 ++
          [.wait s.cur (s.handles src) all ms s.vclock])
    else if ms = 0 then
      ((s.asking src all).waitTimedOut.1,
        (s.asking src all).waitTimedOut.2 ++ [.wait s.cur (s.handles src) all ms s.vclock])
    else
      (((s.asking src all).timing ms).toSched .blocked (.wait src all),
        [.wait s.cur (s.handles src) all ms s.vclock]) := rfl

/-- How a call ends, as far as the fiber table and the clock are concerned. -/
inductive Outcome (s : Sys) : Sys × List Note → Prop
  | returned {s1 : Sys} {v : ℕ} {ns : List Note} :
      s.Same s1 → (∀ n ∈ ns, n.plain = true) → Outcome s (s1.return_ v ns)
  | stored (a b : ℕ) : Outcome s (s.pokeByte a b, [])
  | created {s1 : Sys} {v : ℕ} (st : FState) (hst : st = .suspended ∨ st = .ready)
      (fiber : s1.fiber = Function.update s.fiber s.nfiber { Fiber.zero with state := st })
      (nfiber : s1.nfiber = s.nfiber + 1) (cur : s1.cur = s.cur) (vclock : s1.vclock = s.vclock) :
      Outcome s (s1.return_ v [])
  | started {i v : ℕ} (hi : i < s.nfiber) (hst : (s.fiber i).state = .suspended) :
      Outcome s ((s.setFiber i { s.fiber i with state := .ready }).return_ v [])
  | killed {i code v : ℕ} (hi : i < s.nfiber) (hne : i ≠ s.cur) :
      Outcome s
        ((s.setFiber i { s.fiber i with exitCode := code, state := .done }).return_ v [.ended i])
  | ended (f : Fiber) (code : ℕ)
      (hf : f.waitCs = s.me.waitCs ∧ f.waitSrw = s.me.waitSrw ∧ f.waitCv = s.me.waitCv)
      (hc : f.cont = s.me.cont) :
      Outcome s ((s.setMe f).finish code, [.ended s.cur])
  | exited : Outcome s ({ s with mode := .exited }, [])

section
variable (s : Sys)

theorem Outcome.return_ (v : ℕ) {ns : List Note} (h : ∀ n ∈ ns, n.plain = true) :
    Outcome s (s.return_ v ns) :=
  .returned (.refl s) h

theorem Outcome.fail (e v : ℕ) : Outcome s (s.fail e v) :=
  .returned ⟨rfl, rfl, rfl, rfl⟩ (by simp)

theorem Outcome.quick (o : Objs) (v : ℕ) {ns : List Note} (h : ∀ n ∈ ns, n.plain = true) :
    Outcome s (s.quick o v ns) :=
  .returned ⟨rfl, rfl, rfl, rfl⟩ h

theorem spawn_outcome (suspended : Bool) (pTid : ℕ) : Outcome s (s.spawn suspended pTid) := by
  unfold Sys.spawn
  split
  · exact .fail s 8 0
  · refine .created (if suspended then .suspended else .ready) ?_ ?_ ?_ ?_ ?_
    · cases suspended <;> simp
    all_goals split <;> rfl

theorem threadIdx_lt {h i : ℕ} (hi : s.threadIdx h = some i) : i < s.nfiber :=
  handleIdx_lt hi

theorem resumeThread_outcome (h : ℕ) : Outcome s (s.resumeThread h) := by
  unfold Sys.resumeThread
  cases hi : s.threadIdx h with
  | none => exact .return_ s _ (by simp)
  | some i =>
      show Outcome s (if _ then _ else _)
      split
      · rename_i hst
        exact .started (threadIdx_lt s hi) hst
      · exact .return_ s _ (by simp)

theorem exitThread_outcome (code : ℕ) : Outcome s (s.exitThread code) := by
  unfold Sys.exitThread
  split
  · exact .exited
  · exact .ended _ code ⟨rfl, rfl, rfl⟩ rfl

theorem returnThread_outcome (code : ℕ) : Outcome s (s.returnThread code) := by
  unfold Sys.returnThread
  split
  · exact .exited
  · have hme : s.setMe s.me = s := by
      simp [Sys.setMe, Sys.setFiber, Sys.me]
    have h : Outcome s ((s.setMe s.me).finish code, [.ended s.cur]) :=
      .ended s.me code ⟨rfl, rfl, rfl⟩ rfl
    rwa [hme] at h

theorem threadResolve_lt {h i : ℕ} (hi : s.threadResolve h = some i) (hne : i ≠ s.cur) :
    i < s.nfiber := by
  unfold Sys.threadResolve at hi
  split at hi
  · cases hi
    exact absurd rfl hne
  · exact threadIdx_lt s hi

theorem terminateThread_outcome (h code : ℕ) : Outcome s (s.terminateThread h code) := by
  unfold Sys.terminateThread
  cases hi : s.threadResolve h with
  | none => exact .return_ s _ (by simp)
  | some i =>
      show Outcome s (if _ then _ else _)
      split
      · exact exitThread_outcome s code
      · rename_i hne
        exact .killed (threadResolve_lt s hi hne) hne

theorem getExitCodeThread_outcome (h out : ℕ) : Outcome s (s.getExitCodeThread h out) := by
  unfold Sys.getExitCodeThread
  cases s.threadIdx h with
  | none => exact .returned (.poke_unless s out 0) (by simp)
  | some i => exact .returned (.poke_unless s out _) (by simp)

theorem createEvent_outcome (manual initial : Bool) (nh : ℕ) :
    Outcome s (s.createEvent manual initial nh) := by
  unfold Sys.createEvent
  cases s.objs.eventNamed nh with
  | some i => exact .fail s _ _
  | none =>
      show Outcome s (if _ then _ else _)
      split
      · exact .fail s _ _
      · exact .quick s _ _ (by simp)

theorem setEvent_outcome (h : ℕ) (signaled : Bool) : Outcome s (s.setEvent h signaled) := by
  unfold Sys.setEvent
  cases s.objs.eventIdx h with
  | some i => exact .quick s _ _ (by simp)
  | none => exact .return_ s _ (by simp)

theorem createMutex_outcome (initialOwner : Bool) (nh : ℕ) :
    Outcome s (s.createMutex initialOwner nh) := by
  unfold Sys.createMutex
  cases s.objs.mutexNamed nh with
  | some i => exact .fail s _ _
  | none =>
      show Outcome s (if _ then _ else _)
      split
      · exact .fail s _ _
      · exact .quick s _ _ (by cases initialOwner <;> simp [Note.plain])

theorem openMutex_outcome (nh : ℕ) : Outcome s (s.openMutex nh) := by
  unfold Sys.openMutex
  cases s.objs.mutexNamed nh with
  | some i => exact .return_ s _ (by simp)
  | none => exact .fail s _ _

theorem releaseMutex_outcome (h : ℕ) : Outcome s (s.releaseMutex h) := by
  unfold Sys.releaseMutex
  cases s.objs.mutexIdx h with
  | none => exact .return_ s _ (by simp)
  | some i => exact .quick s _ _ (by simp [Note.plain])

theorem createSemaphore_outcome (initial max : ℤ) (nh : ℕ) :
    Outcome s (s.createSemaphore initial max nh) := by
  unfold Sys.createSemaphore
  cases s.objs.semNamed nh with
  | some i => exact .fail s _ _
  | none =>
      show Outcome s (if _ then _ else _)
      split
      · exact .fail s _ _
      · exact .quick s _ _ (by simp [Note.plain])

theorem openSemaphore_outcome (nh : ℕ) : Outcome s (s.openSemaphore nh) := by
  unfold Sys.openSemaphore
  cases s.objs.semNamed nh with
  | some i => exact .return_ s _ (by simp)
  | none => exact .fail s _ _

theorem releaseSemaphore_outcome (h : ℕ) (rel : ℤ) (pPrev : ℕ) :
    Outcome s (s.releaseSemaphore h rel pPrev) := by
  unfold Sys.releaseSemaphore
  cases s.objs.semIdx h with
  | none => exact .return_ s _ (by simp)
  | some i =>
      show Outcome s (if _ then _ else _)
      split
      · exact .fail s _ _
      · have hp := Sys.Same.poke_unless s pPrev (word (s.objs.sem i).count)
        exact .returned ⟨hp.fiber, hp.nfiber, hp.cur, hp.vclock⟩ (by simp [Note.plain])

theorem call_outcome {c : Call} (hc : c.onLocks = false) (hb : c.blocks = false) :
    Outcome s (s.call c) := by
  cases c with
  | store a b => exact .stored a _
  | setLastError e => exact .fail s e 0
  | returnThread code => exact returnThread_outcome s code
  | createThread suspended pTid => exact spawn_outcome s suspended pTid
  | resumeThread h => exact resumeThread_outcome s h
  | exitThread code => exact exitThread_outcome s code
  | terminateThread h code => exact terminateThread_outcome s h code
  | getExitCodeThread h out => exact getExitCodeThread_outcome s h out
  | sleep ms => cases hb
  | waitForSingleObject h ms => cases hb
  | waitForMultipleObjects n ph all ms => cases hb
  | createEvent manual initial nh => exact createEvent_outcome s manual initial nh
  | setEvent h => exact setEvent_outcome s h true
  | resetEvent h => exact setEvent_outcome s h false
  | createMutex initialOwner nh => exact createMutex_outcome s initialOwner nh
  | openMutex nh => exact openMutex_outcome s nh
  | releaseMutex h => exact releaseMutex_outcome s h
  | createSemaphore initial max nh => exact createSemaphore_outcome s _ _ nh
  | openSemaphore nh => exact openSemaphore_outcome s nh
  | releaseSemaphore h rel pPrev => exact releaseSemaphore_outcome s h _ pPrev
  | _ => cases hc

end

/-! ### What the wake predicate reads -/

/-- The two states agree on what the wake predicate reads: the objects and which fibers have
ended. -/
structure Sys.Alike (s s' : Sys) : Prop where
  objs : s'.objs = s.objs
  nfiber : s'.nfiber = s.nfiber
  isDone : ∀ i, s'.isDone i = s.isDone i

theorem Sys.Alike.trans {s s₁ s₂ : Sys} (h₁ : s.Alike s₁) (h₂ : s₁.Alike s₂) : s.Alike s₂ :=
  ⟨h₂.objs.trans h₁.objs, h₂.nfiber.trans h₁.nfiber, fun i => (h₂.isDone i).trans (h₁.isDone i)⟩

theorem Sys.Alike.signaled {s s' : Sys} (a : s.Alike s') (h i : ℕ) :
    s'.handleSignaledFor h i = s.handleSignaledFor h i := by
  unfold Sys.handleSignaledFor Sys.threadIdx
  rw [a.objs, a.nfiber]
  simp only [a.isDone]

/-- The objects that a wait asks for are signalled for fiber `i`: all of them, or one. -/
def Sys.satisfied (s : Sys) (i : ℕ) (hs : List ℕ) (all : Bool) : Bool :=
  if all then hs.all fun h => s.handleSignaledFor h i
  else hs.any fun h => s.handleSignaledFor h i

theorem Sys.Alike.satisfied {s s' : Sys} (a : s.Alike s') (i : ℕ) (hs : List ℕ) (all : Bool) :
    s'.satisfied i hs all = s.satisfied i hs all := by
  unfold Sys.satisfied
  simp only [a.signaled]

def Sys.waitIdx (s : Sys) (hs : List ℕ) (all : Bool) : ℕ :=
  if all then 0 else (hs.findIdx? fun h => s.handleSignaledFor h s.cur).getD 0

theorem waitOk_eq_satisfied (s : Sys) {i : ℕ} (h : (s.fiber i).waitH ≠ []) :
    s.waitOk i = s.satisfied i (s.fiber i).waitH (s.fiber i).waitAll := by
  unfold Sys.waitOk Sys.satisfied
  rw [if_neg h]

theorem Sys.Alike.waitOk {s s' : Sys} (a : s.Alike s') {i : ℕ}
    (hH : (s'.fiber i).waitH = (s.fiber i).waitH)
    (hA : (s'.fiber i).waitAll = (s.fiber i).waitAll) : s'.waitOk i = s.waitOk i := by
  unfold Sys.waitOk
  simp only [hH, hA, a.signaled]

theorem Sys.Alike.of_update {s s' : Sys} {k : ℕ} {f : Fiber} (ho : s'.objs = s.objs)
    (hn : s'.nfiber = s.nfiber) (hf : s'.fiber = Function.update s.fiber k f)
    (hk : f.state = .done ↔ (s.fiber k).state = .done) : s.Alike s' := by
  refine ⟨ho, hn, fun i => ?_⟩
  unfold Sys.isDone
  rw [hf]
  by_cases hi : i = k
  · subst hi
    rw [Function.update_self]
    exact Bool.eq_iff_iff.mpr (by simpa using hk)
  · rw [Function.update_of_ne hi]

/-! ### The scheduler's choices -/

@[simp] theorem wakeRunnable_vclock (s : Sys) : s.wakeRunnable.vclock = s.vclock := rfl

theorem wakeRunnable_fiber (s : Sys) (i : ℕ) : s.wakeRunnable.fiber i =
    if i < s.nfiber ∧ (s.fiber i).state = .blocked ∧ s.fiberRunnable i then
      { s.fiber i with state := .ready, timedOut := false }
    else s.fiber i := rfl

theorem wakeRunnable_alike (s : Sys) : s.Alike s.wakeRunnable := by
  refine ⟨rfl, rfl, fun i => ?_⟩
  unfold Sys.isDone
  rw [wakeRunnable_fiber]
  split
  · rename_i h
    rw [h.2.1]
    rfl
  · rfl

theorem wakeRunnable_cont (s : Sys) (i : ℕ) :
    (s.wakeRunnable.fiber i).cont = (s.fiber i).cont ∧
      (s.wakeRunnable.fiber i).waitH = (s.fiber i).waitH ∧
      (s.wakeRunnable.fiber i).waitAll = (s.fiber i).waitAll := by
  rw [wakeRunnable_fiber]
  split <;> exact ⟨rfl, rfl, rfl⟩

theorem switchTo_alike {s : Sys} {i : ℕ} (hr : (s.fiber i).state = .ready) :
    s.Alike (s.switchTo i) := by
  refine .of_update rfl rfl rfl ?_
  rw [hr]
  exact ⟨nofun, nofun⟩

theorem turn_of_pick {s : Sys} {i : ℕ} (h : s.wakeRunnable.pick = some i) :
    s.turn = (s.wakeRunnable.switchTo i).resume := by
  simp only [Sys.turn, h]

theorem switchTo_me (s : Sys) (i : ℕ) :
    (s.switchTo i).me = { s.fiber i with state := .running } :=
  Function.update_self ..

def Sys.stop (s : Sys) : Sys :=
  { s with mode := if s.anyBlocked then .deadlock else .exited }

theorem turn_of_none {s : Sys} (h : s.wakeRunnable.pick = none) : s.turn =
    if s.wakeRunnable.earliest ≠ Sys.noDeadline then
      (s.wakeRunnable.fire s.wakeRunnable.earliest, [])
    else (s.wakeRunnable.stop, []) := by
  simp only [Sys.turn, h, Sys.stop]
  split
  · rfl
  · split <;> rfl

theorem anyBlocked_iff (s : Sys) :
    s.anyBlocked = true ↔ ∃ i < s.nfiber, (s.fiber i).state = .blocked := by
  simp [Sys.anyBlocked]

theorem pick_some {s : Sys} {i : ℕ} (h : s.pick = some i) :
    i < s.nfiber ∧ (s.fiber i).state = .ready := by
  unfold Sys.pick at h
  have hp := List.find?_some h
  have hm := List.mem_of_find?_eq_some h
  rw [List.mem_map] at hm
  obtain ⟨k, hk, rfl⟩ := hm
  rw [List.mem_range] at hk
  exact ⟨Nat.mod_lt _ (by omega), by simpa using hp⟩

theorem round_covers {n i : ℕ} (r : ℕ) (hi : i < n) : ∃ k < n, (r + (k + 1)) % n = i := by
  have hn : 0 < n := by omega
  refine ⟨(i + (n - (r + 1) % n)) % n, Nat.mod_lt _ hn, ?_⟩
  have hr : (r + 1) % n < n := Nat.mod_lt _ hn
  have hsplit : (r + 1) % n + n * ((r + 1) / n) = r + 1 := Nat.mod_add_div _ _
  calc (r + ((i + (n - (r + 1) % n)) % n + 1)) % n
      = ((r + 1) + (i + (n - (r + 1) % n)) % n) % n := by ring_nf
    _ = ((r + 1) + (i + (n - (r + 1) % n))) % n := by rw [Nat.add_mod_mod]
    _ = (i + n * ((r + 1) / n + 1)) % n := by
        congr 1
        rw [Nat.mul_add]
        omega
    _ = i := by rw [Nat.add_mul_mod_self_left, Nat.mod_eq_of_lt hi]

theorem pick_none {s : Sys} (h : s.pick = none) {i : ℕ} (hi : i < s.nfiber) :
    (s.fiber i).state ≠ .ready := by
  unfold Sys.pick at h
  rw [List.find?_eq_none] at h
  obtain ⟨k, hk, hki⟩ := round_covers s.rr hi
  have := h i (List.mem_map.mpr ⟨k, List.mem_range.mpr hk, hki⟩)
  simpa using this

section
variable {ι : Type} (p : ι → Prop) [DecidablePred p] (v : ι → ℕ)

theorem foldl_least_le (l : List ι) (e : ℕ) :
    (l.foldl (fun e i => if p i ∧ v i < e then v i else e) e) ≤ e ∧
      ∀ i ∈ l, p i → l.foldl (fun e i => if p i ∧ v i < e then v i else e) e ≤ v i := by
  induction l generalizing e with
  | nil => exact ⟨le_refl e, by simp⟩
  | cons a l ih =>
      rw [List.foldl_cons]
      have h := ih (if p a ∧ v a < e then v a else e)
      have hstep : (if p a ∧ v a < e then v a else e) ≤ e := by
        split <;> omega
      refine ⟨le_trans h.1 hstep, ?_⟩
      intro i hi hpi
      rcases List.mem_cons.mp hi with rfl | hi
      · refine le_trans h.1 ?_
        split
        · exact le_refl _
        · rename_i hc
          have : ¬ v i < e := fun hlt => hc ⟨hpi, hlt⟩
          omega
      · exact h.2 i hi hpi

theorem foldl_least_attained (l : List ι) (e : ℕ) :
    l.foldl (fun e i => if p i ∧ v i < e then v i else e) e = e ∨
      ∃ i ∈ l, p i ∧ v i = l.foldl (fun e i => if p i ∧ v i < e then v i else e) e := by
  induction l generalizing e with
  | nil => exact .inl rfl
  | cons a l ih =>
      rw [List.foldl_cons]
      rcases ih (if p a ∧ v a < e then v a else e) with h | ⟨i, hi, hpi, hv⟩
      · by_cases hc : p a ∧ v a < e
        · rw [if_pos hc] at h ⊢
          exact .inr ⟨a, List.mem_cons_self, hc.1, h.symm⟩
        · rw [if_neg hc] at h ⊢
          exact .inl h
      · exact .inr ⟨i, List.mem_cons_of_mem a hi, hpi, hv⟩

end

/-- Fiber `i` is blocked with a deadline. -/
def Sys.expiring (s : Sys) (i : ℕ) : Prop :=
  (s.fiber i).state = .blocked ∧ (s.fiber i).hasTimeout = true

instance (s : Sys) : DecidablePred s.expiring := fun i => by unfold Sys.expiring; infer_instance

theorem earliest_eq (s : Sys) : s.earliest =
    (List.range s.nfiber).foldl (fun e i =>
      if s.expiring i ∧ (s.fiber i).wakeTime < e then (s.fiber i).wakeTime else e)
      Sys.noDeadline := by
  unfold Sys.earliest Sys.expiring
  simp only [and_assoc]

theorem earliest_le (s : Sys) {i : ℕ} (hi : i < s.nfiber) (h : s.expiring i) :
    s.earliest ≤ (s.fiber i).wakeTime := by
  rw [earliest_eq]
  exact (foldl_least_le s.expiring _ _ _).2 i (List.mem_range.mpr hi) h

theorem earliest_attained (s : Sys) (h : s.earliest ≠ Sys.noDeadline) :
    ∃ i < s.nfiber, s.expiring i ∧ (s.fiber i).wakeTime = s.earliest := by
  rw [earliest_eq] at h ⊢
  rcases foldl_least_attained s.expiring (fun i => (s.fiber i).wakeTime)
    (List.range s.nfiber) Sys.noDeadline with he | ⟨i, hi, hp, hv⟩
  · exact absurd he h
  · exact ⟨i, List.mem_range.mp hi, hp, hv⟩

theorem step_cases {s s' : Sys} {l : Label} {ns : List Note} (h : s.step l = some (s', ns)) :
    (∃ c, l = .call c ∧ s.mode = .program ∧ s.call c = (s', ns)) ∨
      (l = .turn ∧ s.mode = .scheduler ∧ s.turn = (s', ns)) := by
  unfold Sys.step at h
  split at h
  · rename_i c
    split at h
    · rename_i hm
      exact .inl ⟨c, rfl, hm, Option.some.inj h⟩
    · cases h
  · split at h
    · rename_i hm
      exact .inr ⟨rfl, hm, Option.some.inj h⟩
    · cases h

end Aret.Threads
