/-
Cooperative threads of the runtime: the fiber table, the objects that fibers
synchronise on, and the round-robin scheduler with its virtual clock.

A Win32 thread is a coroutine on the one host thread, and control changes hands
only where a fiber parks, so an API call is one step up to the point where it
returns or parks, and a step of the scheduler is one turn of its loop up to the
point where the fiber it picked returns to the program or parks again.
-/
import Mathlib

namespace Aret.Threads

/-! ### The objects -/

/-- An `int` after a sum: the low 32 bits, signed. -/
def int32 (x : ℤ) : ℤ := Int.bmod x (2 ^ 32)

def word (x : ℤ) : ℕ := (x % 2 ^ 32).toNat

def maxFiber : ℕ := 64
def maxCs : ℕ := 256
def maxSrw : ℕ := 256
def maxCv : ℕ := 256
def maxEvent : ℕ := 128
def maxMutex : ℕ := 128
def maxSem : ℕ := 128
def threadBase : ℕ := 0x70000000
def eventBase : ℕ := 0x71000000
def mutexBase : ℕ := 0x72000000
def semBase : ℕ := 0x73000000
def infinite : ℕ := 0xFFFFFFFF
def waitTimeout : ℕ := 0x102

/-- An entry of `g_cs`: `owner` is the index of a fiber plus one, 0 when free. -/
structure CsSlot where
  owner : ℕ
  depth : ℤ
  deriving DecidableEq, Repr

/-- An entry of `g_srw`. -/
structure SrwSlot where
  writer : ℕ
  readers : ℤ
  deriving DecidableEq, Repr

/-- An entry of `g_event`. -/
structure EventObj where
  manual : Bool
  signaled : Bool
  nameHash : ℕ
  deriving DecidableEq, Repr, Inhabited

/-- An entry of `g_mutex`. -/
structure MutexObj where
  owner : ℕ
  depth : ℤ
  nameHash : ℕ
  deriving DecidableEq, Repr, Inhabited

/-- An entry of `g_sem`. -/
structure SemObj where
  count : ℤ
  max : ℤ
  nameHash : ℕ
  deriving DecidableEq, Repr, Inhabited

/-- The object tables. The tables searched by address (`g_cs`, `g_srw`, `g_cv`) are maps from
the address and the number of entries: an entry is only added where the address has none. -/
structure Objs where
  cs : ℕ → Option CsSlot
  ncs : ℕ
  srw : ℕ → Option SrwSlot
  nsrw : ℕ
  cv : ℕ → Option ℤ
  ncv : ℕ
  event : ℕ → EventObj
  nevent : ℕ
  mutex : ℕ → MutexObj
  nmutex : ℕ
  sem : ℕ → SemObj
  nsem : ℕ

def Objs.empty : Objs where
  cs := fun _ => none
  ncs := 0
  srw := fun _ => none
  nsrw := 0
  cv := fun _ => none
  ncv := 0
  event := fun _ => default
  nevent := 0
  mutex := fun _ => default
  nmutex := 0
  sem := fun _ => default
  nsem := 0

def handleIdx (base n h : ℕ) : Option ℕ :=
  if h / 2 ^ 24 = base / 2 ^ 24 ∧ h % 2 ^ 24 < n then some (h % 2 ^ 24) else none

namespace Objs

variable (o : Objs)

def eventIdx (h : ℕ) : Option ℕ := handleIdx eventBase o.nevent h
def mutexIdx (h : ℕ) : Option ℕ := handleIdx mutexBase o.nmutex h
def semIdx (h : ℕ) : Option ℕ := handleIdx semBase o.nsem h

/-! #### Critical sections -/

def setCs (k : ℕ) (c : CsSlot) : Objs := { o with cs := Function.update o.cs k (some c) }

def csOwner (k : ℕ) : ℕ :=
  match o.cs k with
  | some c => c.owner
  | none => 0

/-- `u32_cs_ensure`; `none` where the table is full and the runtime aborts. -/
def csEnsure (k : ℕ) : Option Objs :=
  match o.cs k with
  | some _ => some o
  | none => if maxCs ≤ o.ncs then none else some { o.setCs k ⟨0, 0⟩ with ncs := o.ncs + 1 }

/-- Takes the critical section for fiber `i` unless another one owns it. -/
def csTake (k i : ℕ) : Option Objs :=
  match o.cs k with
  | some c =>
    if c.owner = 0 ∨ c.owner = i + 1 then some (o.setCs k ⟨i + 1, int32 (c.depth + 1)⟩) else none
  | none => none

/-- `LeaveCriticalSection` by fiber `i`. -/
def csLeave (k i : ℕ) : Objs :=
  match o.cs k with
  | some c =>
    if c.owner = i + 1 ∧ 0 < c.depth then
      o.setCs k ⟨if c.depth - 1 = 0 then 0 else c.owner, c.depth - 1⟩
    else o
  | none => o

def csDelete (k : ℕ) : Objs :=
  match o.cs k with
  | some _ => { o with cs := Function.update o.cs k none, ncs := o.ncs - 1 }
  | none => o

/-- What a sleep on a condition variable does to the critical section it is given. -/
def csDrop (k : ℕ) : Objs :=
  match o.cs k with
  | some _ => o.setCs k ⟨0, 0⟩
  | none => o

/-! #### SRW locks -/

def setSrw (k : ℕ) (l : SrwSlot) : Objs := { o with srw := Function.update o.srw k (some l) }

def srwEnsure (k : ℕ) : Option Objs :=
  match o.srw k with
  | some _ => some o
  | none => if maxSrw ≤ o.nsrw then none else some { o.setSrw k ⟨0, 0⟩ with nsrw := o.nsrw + 1 }

def srwAcquirable (k : ℕ) (excl : Bool) (i : ℕ) : Bool :=
  match o.srw k with
  | some l =>
    if excl then l.writer == 0 && l.readers == 0 else l.writer == 0 || l.writer == i + 1
  | none => true

def srwTake (k : ℕ) (excl : Bool) (i : ℕ) : Option Objs :=
  match o.srwEnsure k with
  | some o' =>
    match o'.srw k with
    | some l =>
      some (o'.setSrw k (if excl then ⟨i + 1, l.readers⟩ else ⟨l.writer, int32 (l.readers + 1)⟩))
    | none => none
  | none => none

def srwRelease (k : ℕ) (excl : Bool) (i : ℕ) : Objs :=
  match o.srw k with
  | some l =>
    if excl then
      if l.writer = i + 1 then o.setSrw k ⟨0, l.readers⟩ else o
    else
      if 0 < l.readers then o.setSrw k ⟨l.writer, l.readers - 1⟩ else o
  | none => o

/-! #### Condition variables -/

def setCv (k : ℕ) (g : ℤ) : Objs := { o with cv := Function.update o.cv k (some g) }

def cvEnsure (k : ℕ) : Option Objs :=
  match o.cv k with
  | some _ => some o
  | none => if maxCv ≤ o.ncv then none else some { o.setCv k 0 with ncv := o.ncv + 1 }

def cvGrants (k : ℕ) : ℤ := (o.cv k).getD 0

/-! #### Events, mutexes and semaphores -/

def setEvent (i : ℕ) (e : EventObj) : Objs := { o with event := Function.update o.event i e }
def setMutex (i : ℕ) (m : MutexObj) : Objs := { o with mutex := Function.update o.mutex i m }
def setSem (i : ℕ) (m : SemObj) : Objs := { o with sem := Function.update o.sem i m }

def named (n : ℕ) (hash : ℕ → ℕ) (nh : ℕ) : Option ℕ :=
  if nh = 0 then none else (List.range n).find? fun i => hash i = nh

def eventNamed (nh : ℕ) : Option ℕ := named o.nevent (fun i => (o.event i).nameHash) nh
def mutexNamed (nh : ℕ) : Option ℕ := named o.nmutex (fun i => (o.mutex i).nameHash) nh
def semNamed (nh : ℕ) : Option ℕ := named o.nsem (fun i => (o.sem i).nameHash) nh

/-- `ReleaseMutex` by fiber `me`. -/
def mutexRelease (i me : ℕ) : Objs :=
  let m := o.mutex i
  if m.owner = me + 1 ∧ 0 < m.depth then
    o.setMutex i
      { m with owner := if m.depth - 1 = 0 then 0 else m.owner, depth := m.depth - 1 }
  else o

/-- `u32_handle_acquire`. -/
def handleAcquire (h me : ℕ) : Objs :=
  match o.eventIdx h with
  | some i =>
    if (o.event i).manual then o else o.setEvent i { o.event i with signaled := false }
  | none =>
    match o.mutexIdx h with
    | some i =>
      o.setMutex i { o.mutex i with owner := me + 1, depth := int32 ((o.mutex i).depth + 1) }
    | none =>
      match o.semIdx h with
      | some i =>
        if 0 < (o.sem i).count then
          o.setSem i { o.sem i with count := (o.sem i).count - 1 }
        else o
      | none => o

end Objs

/-! ### Fibers and the scheduler's globals -/

/-- The states `FST_*` of a fiber. -/
inductive FState
  | free | suspended | ready | running | blocked | done
  deriving DecidableEq, Repr

/-- Where `u32_wait` reads the handles it is given: `WaitForSingleObject` passes its own copy
of the argument, `WaitForMultipleObjects` the array of the program. -/
inductive Handles
  | own (h : ℕ)
  | array (ptr n : ℕ)
  deriving DecidableEq, Repr

/-- The place at which the host stack of a fiber that does not run stands. -/
inductive Cont
  /-- In the program: not started yet, or at a `Sleep(0)`. -/
  | program
  | wait (src : Handles) (all : Bool)
  | sleep
  | enterCs (k : ℕ)
  | acquireSrw (k : ℕ) (excl : Bool)
  /-- In the loop of `u32_condvar_sleep` that waits for a grant. -/
  | cvSleep (cv lock : ℕ) (isCs shared : Bool)
  /-- After it, taking the lock again; `ret` is what the call will return. -/
  | cvReacquire (lock : ℕ) (isCs shared : Bool) (ret : ℕ)
  deriving DecidableEq, Repr

/-- An entry of `g_fiber`; `waitH` holds the `wait_n` handles of the wait set. -/
structure Fiber where
  state : FState
  exitCode : ℕ
  lastError : ℕ
  waitH : List ℕ
  waitAll : Bool
  waitCs : ℕ
  waitSrw : ℕ
  waitSrwExcl : Bool
  waitCv : ℕ
  hasTimeout : Bool
  timedOut : Bool
  wakeTime : ℕ
  cont : Cont
  deriving DecidableEq, Repr

def Fiber.zero : Fiber where
  state := .free
  exitCode := 0
  lastError := 0
  waitH := []
  waitAll := false
  waitCs := 0
  waitSrw := 0
  waitSrwExcl := false
  waitCv := 0
  hasTimeout := false
  timedOut := false
  wakeTime := 0
  cont := .program

/-- Who has the host thread: the program of the running fiber or the scheduler; or how the
process ended. -/
inductive Mode
  | program | scheduler | deadlock | exited | aborted
  deriving DecidableEq, Repr

structure Sys where
  objs : Objs
  fiber : ℕ → Fiber
  nfiber : ℕ
  cur : ℕ
  rr : ℕ
  schedReady : Bool
  vclock : ℕ
  lastError : ℕ
  /-- The bytes of the program's memory. -/
  mem : ℕ → ℕ
  mode : Mode

/-- The process at the start of the main thread, with any contents of its memory. -/
def Sys.start (mem : ℕ → ℕ) : Sys where
  objs := .empty
  fiber := fun _ => .zero
  nfiber := 1
  cur := 0
  rr := 0
  schedReady := false
  vclock := 0
  lastError := 0
  mem := mem
  mode := .program

/-- A lock, as the notes of a run name it. -/
inductive Lock
  | cs (k : ℕ)
  | srw (k : ℕ) (excl : Bool)
  | mutex (i : ℕ)
  deriving DecidableEq, Repr

/-- What a step shows. Only `call` of a wait or a sleep carries the time, for its deadline. -/
inductive Note
  /-- Fiber `i` calls `u32_wait` on these handles at a time of the virtual clock. -/
  | wait (i : ℕ) (hs : List ℕ) (all : Bool) (ms clock : ℕ)
  /-- `u32_wait` returns to fiber `i`. -/
  | waited (i r : ℕ)
  /-- Fiber `i` starts to sleep on the virtual clock. -/
  | sleep (i ms clock : ℕ)
  | slept (i : ℕ)
  /-- Fiber `i` acquires the lock. -/
  | took (l : Lock) (i : ℕ)
  /-- Fiber `i` calls the release of the lock. -/
  | gave (l : Lock) (i : ℕ)
  /-- The lock is deleted, or released by a sleep on a condition variable. -/
  | dropped (l : Lock)
  | semCreated (i : ℕ) (initial max : ℤ)
  /-- A release adds to the count of a semaphore. -/
  | posted (i : ℕ) (n : ℤ)
  /-- A successful wait lists the semaphore. -/
  | downed (i : ℕ)
  /-- Fiber `i` starts to sleep on a condition variable. -/
  | cvSleep (i cv lock : ℕ) (isCs shared : Bool) (ms : ℕ)
  /-- Its wait for a grant ends, with a grant or by the deadline. -/
  | cvWoken (i cv : ℕ) (granted : Bool)
  /-- The call returns, holding the lock again. -/
  | cvReturn (i ret : ℕ)
  | cvWake (cv : ℕ) (all : Bool)
  /-- Fiber `i` ends or is terminated. -/
  | ended (i : ℕ)
  /-- An API call of fiber `i` returns a value. -/
  | ret (i v : ℕ)
  deriving DecidableEq, Repr

def Objs.acquireNote (o : Objs) (h me : ℕ) : Option Note :=
  match o.mutexIdx h with
  | some m => some (.took (.mutex m) me)
  | none => (o.semIdx h).map .downed

namespace Sys

variable (s : Sys)

def me : Fiber := s.fiber s.cur

def setFiber (i : ℕ) (f : Fiber) : Sys := { s with fiber := Function.update s.fiber i f }

def setMe (f : Fiber) : Sys := s.setFiber s.cur f

def peek (a : ℕ) : ℕ :=
  s.mem a + 2 ^ 8 * s.mem (a + 1) + 2 ^ 16 * s.mem (a + 2) + 2 ^ 24 * s.mem (a + 3)

def pokeByte (a b : ℕ) : Sys := { s with mem := Function.update s.mem a b }

def poke (a w : ℕ) : Sys :=
  (((s.pokeByte a (w % 2 ^ 8)).pokeByte (a + 1) (w / 2 ^ 8 % 2 ^ 8)).pokeByte (a + 2)
    (w / 2 ^ 16 % 2 ^ 8)).pokeByte (a + 3) (w / 2 ^ 24 % 2 ^ 8)

def handles : Handles → List ℕ
  | .own h => [h]
  | .array ptr n => (List.range n).map fun k => s.peek (ptr + 4 * k)

def threadIdx (h : ℕ) : Option ℕ := handleIdx threadBase s.nfiber h

/-- `u32_thread_resolve`, which knows the pseudo-handle of the calling thread. -/
def threadResolve (h : ℕ) : Option ℕ := if h = 0xFFFFFFFE then some s.cur else s.threadIdx h

def isDone (i : ℕ) : Bool := (s.fiber i).state == .done

/-! ### The wake predicate -/

/-- `u32_handle_signaled_for`, without socket events. -/
def handleSignaledFor (h i : ℕ) : Bool :=
  match s.threadIdx h with
  | some t => s.isDone t
  | none =>
    match s.objs.eventIdx h with
    | some e => (s.objs.event e).signaled
    | none =>
      match s.objs.mutexIdx h with
      | some m =>
        let w := (s.objs.mutex m).owner
        w == 0 || w == i + 1 || s.isDone (w - 1)
      | none =>
        match s.objs.semIdx h with
        | some k => 0 < (s.objs.sem k).count
        | none => true

/-- `u32_wait_ok`. -/
def waitOk (i : ℕ) : Bool :=
  let f := s.fiber i
  if f.waitH = [] then true
  else if f.waitAll then f.waitH.all fun h => s.handleSignaledFor h i
  else f.waitH.any fun h => s.handleSignaledFor h i

/-- `u32_cv_waiters`. -/
def cvWaiters (k : ℕ) : ℤ :=
  ((List.range s.nfiber).countP fun i =>
    (s.fiber i).state == .blocked && (s.fiber i).waitCv == k : ℕ)

/-- `u32_fiber_runnable`. -/
def fiberRunnable (i : ℕ) : Bool :=
  let f := s.fiber i
  if f.waitSrw ≠ 0 then s.objs.srwAcquirable f.waitSrw f.waitSrwExcl i
  else if f.waitCv ≠ 0 then 0 < s.objs.cvGrants f.waitCv
  else if f.waitCs ≠ 0 then s.objs.csOwner f.waitCs == 0 || s.objs.csOwner f.waitCs == i + 1
  else if f.waitH = [] then false
  else s.waitOk i

/-! ### Parking -/

/-- The runtime cannot go on: `aret_unmodelled`. -/
def abort : Sys × List Note := ({ s with mode := .aborted }, [])

def return_ (v : ℕ) (notes : List Note) : Sys × List Note :=
  ({ s.setMe { s.me with cont := .program } with mode := .program }, .ret s.cur v :: notes)

/-- `u32_to_sched`: the running fiber parks at a place of the runtime in a state. -/
def toSched (st : FState) (c : Cont) : Sys :=
  { s.setMe { s.me with state := st, lastError := s.lastError, cont := c } with
    mode := .scheduler, schedReady := true }

def finish (code : ℕ) : Sys :=
  { s.setMe { s.me with state := .done, exitCode := code } with mode := .scheduler }

/-! ### Waits and sleeps -/

/-- The end of `u32_wait` that consumes the objects, for the handles `hs` it reads now. -/
def waitTake (hs : List ℕ) (all : Bool) : Sys × List Note :=
  let s1 := s.setMe { s.me with waitH := [] }
  let idx := if all then 0 else (hs.findIdx? fun h => s.handleSignaledFor h s.cur).getD 0
  let taken := if all then hs else (hs[idx]?).toList
  let objs := taken.foldl (fun o h => o.handleAcquire h s.cur) s.objs
  let notes := taken.reverse.filterMap fun h => s.objs.acquireNote h s.cur
  { s1 with objs := objs }.return_ idx (.waited s.cur idx :: notes)

def waitTimedOut : Sys × List Note :=
  (s.setMe { s.me with waitH := [] }).return_ waitTimeout [.waited s.cur waitTimeout]

/-- `u32_wait` by the running fiber. -/
def wait (src : Handles) (all : Bool) (ms : ℕ) : Sys × List Note :=
  let hs := (s.handles src).take 64
  let note := Note.wait s.cur (s.handles src) all ms s.vclock
  let s1 := s.setMe { s.me with waitH := hs, waitAll := all }
  if s1.waitOk s1.cur then
    let r := s1.waitTake hs all
    (r.1, r.2 ++ [note])
  else if ms = 0 then
    let r := s1.waitTimedOut
    (r.1, r.2 ++ [note])
  else
    let s2 := s1.setMe { s1.me with
      hasTimeout := ms != infinite, wakeTime := (s.vclock + ms) % 2 ^ 64, timedOut := false }
    (s2.toSched .blocked (.wait src all), [note])

/-- The loop of `u32_wait` after the fiber is woken. -/
def waitWoken (src : Handles) (all : Bool) : Sys × List Note :=
  let s1 := s.setMe { s.me with hasTimeout := false }
  if s.waitOk s.cur then s1.waitTake ((s1.handles src).take 64) all
  else if s.me.timedOut then s1.waitTimedOut
  else (s.toSched .blocked (.wait src all), [])

/-- `aret_fiber_sleep`; before any thread exists the host sleeps instead. -/
def sleep (ms : ℕ) : Sys × List Note :=
  if s.schedReady = false then s.return_ 0 []
  else if ms = 0 then (s.toSched .ready .program, [])
  else
    let s1 := s.setMe { s.me with waitH := [], waitCs := 0, hasTimeout := true,
                                  wakeTime := (s.vclock + ms) % 2 ^ 64, timedOut := false }
    (s1.toSched .blocked .sleep, [.sleep s.cur ms s.vclock])

def sleepWoken : Sys × List Note :=
  if s.me.timedOut then
    (s.setMe { s.me with hasTimeout := false }).return_ 0 [.slept s.cur]
  else (s.toSched .blocked .sleep, [])

/-! ### Locks -/

/-- A turn of the loop of `EnterCriticalSection`. -/
def enterTurn (k : ℕ) : Sys × List Note :=
  match s.objs.csTake k s.cur with
  | some o => { s with objs := o }.return_ 0 [.took (.cs k) s.cur]
  | none => ((s.setMe { s.me with waitCs := k }).toSched .blocked (.enterCs k), [])

def enterCs (k : ℕ) : Sys × List Note :=
  match s.objs.csEnsure k with
  | some o => { s with objs := o }.enterTurn k
  | none => s.abort

def enterWoken (k : ℕ) : Sys × List Note :=
  let s1 := s.setMe { s.me with waitCs := 0 }
  match s1.objs.cs k with
  | some _ => s1.enterTurn k
  | none => s1.return_ 0 []

def tryEnterCs (k : ℕ) : Sys × List Note :=
  match s.objs.csEnsure k with
  | some o =>
    match o.csTake k s.cur with
    | some o' => { s with objs := o' }.return_ 1 [.took (.cs k) s.cur]
    | none => { s with objs := o }.return_ 0 []
  | none => s.abort

/-- `u32_srw_take` by the running fiber, with the value its caller returns. -/
def srwTake (k : ℕ) (excl : Bool) (v : ℕ) (notes : List Note) : Sys × List Note :=
  match s.objs.srwTake k excl s.cur with
  | some o => { s with objs := o }.return_ v (notes ++ [Note.took (.srw k excl) s.cur])
  | none => s.abort

/-- A turn of the loop of `u32_srw_acquire`; `c` is the place it parks at. -/
def srwTurn (k : ℕ) (excl : Bool) (c : Cont) (v : ℕ) (notes : List Note) : Sys × List Note :=
  if s.objs.srwAcquirable k excl s.cur then s.srwTake k excl v notes
  else ((s.setMe { s.me with waitSrw := k, waitSrwExcl := excl }).toSched .blocked c, [])

def acquireSrw (k : ℕ) (excl : Bool) : Sys × List Note :=
  s.srwTurn k excl (.acquireSrw k excl) 0 []

def acquireSrwWoken (k : ℕ) (excl : Bool) : Sys × List Note :=
  (s.setMe { s.me with waitSrw := 0 }).acquireSrw k excl

def tryAcquireSrw (k : ℕ) (excl : Bool) : Sys × List Note :=
  if s.objs.srwAcquirable k excl s.cur then s.srwTake k excl 1 [] else s.return_ 0 []

/-! ### Condition variables -/

/-- A turn of the loop that takes the lock again, for a call that will return `ret`. -/
def reacquireTurn (lock : ℕ) (isCs shared : Bool) (ret : ℕ) : Sys × List Note :=
  if isCs then
    match s.objs.csEnsure lock with
    | some o =>
      let s1 := { s with objs := o }
      match o.csTake lock s.cur with
      | some o' => { s1 with objs := o' }.return_ ret [.cvReturn s.cur ret, .took (.cs lock) s.cur]
      | none =>
        ((s1.setMe { s1.me with waitCs := lock }).toSched .blocked
          (.cvReacquire lock isCs shared ret), [])
    | none => s.abort
  else
    s.srwTurn lock (!shared) (.cvReacquire lock isCs shared ret) ret [.cvReturn s.cur ret]

def reacquireWoken (lock : ℕ) (isCs shared : Bool) (ret : ℕ) : Sys × List Note :=
  (s.setMe { s.me with waitCs := 0, waitSrw := 0 }).reacquireTurn lock isCs shared ret

def cvLeave (cv lock : ℕ) (isCs shared granted : Bool) (notes : List Note) : Sys × List Note :=
  let s1 := if granted then s else { s with lastError := waitTimeout }
  let r := s1.reacquireTurn lock isCs shared (if granted then 1 else 0)
  (r.1, r.2 ++ .cvWoken s.cur cv granted :: notes)

def cvRelease (lock : ℕ) (isCs shared : Bool) : Sys × List Note :=
  if isCs then ({ s with objs := s.objs.csDrop lock }, [.dropped (.cs lock)])
  else ({ s with objs := s.objs.srwRelease lock (!shared) s.cur },
        [.gave (.srw lock (!shared)) s.cur])

/-- `u32_condvar_sleep` by the running fiber. -/
def condvarSleep (cv lock : ℕ) (isCs shared : Bool) (ms : ℕ) : Sys × List Note :=
  match s.objs.cvEnsure cv with
  | some o =>
    let r := { s with objs := o }.cvRelease lock isCs shared
    let s1 := { r.1 with schedReady := true }
    let notes := r.2 ++ [.cvSleep s.cur cv lock isCs shared ms]
    if ms = 0 ∧ o.cvGrants cv = 0 then s1.cvLeave cv lock isCs shared false notes
    else
      let s2 := s1.setMe { s1.me with waitCv := cv, hasTimeout := ms != infinite && ms != 0,
                                      wakeTime := (s.vclock + ms) % 2 ^ 64, timedOut := false }
      (s2.toSched .blocked (.cvSleep cv lock isCs shared), notes)
  | none => s.abort

/-- The loop of `u32_condvar_sleep` after the fiber is woken. -/
def cvSleepWoken (cv lock : ℕ) (isCs shared : Bool) : Sys × List Note :=
  let s1 := s.setMe { s.me with waitCv := 0, hasTimeout := false }
  if 0 < s.objs.cvGrants cv then
    { s1 with objs := s1.objs.setCv cv (s1.objs.cvGrants cv - 1) }.cvLeave cv lock isCs shared
      true []
  else if s.me.timedOut then s1.cvLeave cv lock isCs shared false []
  else (s.toSched .blocked (.cvSleep cv lock isCs shared), [])

def wake (cv : ℕ) (all : Bool) : Sys × List Note :=
  match s.objs.cvEnsure cv with
  | some o =>
    let w := s.cvWaiters cv
    let g := if all then w else if o.cvGrants cv < w then o.cvGrants cv + 1 else o.cvGrants cv
    { s with objs := o.setCv cv g }.return_ 0 [.cvWake cv all]
  | none => s.abort

end Sys

/-! ### API calls -/

/-- The API calls, and the two things a program does between them that matter here: it writes
its memory, and the procedure of a thread returns. -/
inductive Call
  | store (addr byte : ℕ)
  | setLastError (e : ℕ)
  | returnThread (code : ℕ)
  | createThread (suspended : Bool) (pTid : ℕ)
  | resumeThread (h : ℕ)
  | exitThread (code : ℕ)
  | terminateThread (h code : ℕ)
  | getExitCodeThread (h out : ℕ)
  | sleep (ms : ℕ)
  | waitForSingleObject (h ms : ℕ)
  | waitForMultipleObjects (n ph : ℕ) (all : Bool) (ms : ℕ)
  | createEvent (manual initial : Bool) (nh : ℕ)
  | setEvent (h : ℕ)
  | resetEvent (h : ℕ)
  | createMutex (initialOwner : Bool) (nh : ℕ)
  | openMutex (nh : ℕ)
  | releaseMutex (h : ℕ)
  | createSemaphore (initial max : ℤ) (nh : ℕ)
  | openSemaphore (nh : ℕ)
  | releaseSemaphore (h : ℕ) (rel : ℤ) (pPrev : ℕ)
  | initializeCriticalSection (k : ℕ)
  | deleteCriticalSection (k : ℕ)
  | enterCriticalSection (k : ℕ)
  | tryEnterCriticalSection (k : ℕ)
  | leaveCriticalSection (k : ℕ)
  | initializeSRWLock (k : ℕ)
  | acquireSRWLock (k : ℕ) (excl : Bool)
  | releaseSRWLock (k : ℕ) (excl : Bool)
  | tryAcquireSRWLock (k : ℕ) (excl : Bool)
  | initializeConditionVariable (k : ℕ)
  | wakeConditionVariable (k : ℕ)
  | wakeAllConditionVariable (k : ℕ)
  | sleepConditionVariableSRW (cv lock ms : ℕ) (shared : Bool)
  | sleepConditionVariableCS (cv lock ms : ℕ)
  deriving DecidableEq, Repr

namespace Sys

variable (s : Sys)

def quick (o : Objs) (v : ℕ) (notes : List Note) : Sys × List Note :=
  { s with objs := o }.return_ v notes

def fail (e v : ℕ) : Sys × List Note := { s with lastError := e }.return_ v []

/-! #### Threads -/

/-- `u32_spawn`, where the host has memory for the stacks. -/
def spawn (suspended : Bool) (pTid : ℕ) : Sys × List Note :=
  if maxFiber ≤ s.nfiber then s.fail 8 0
  else
    let i := s.nfiber
    let s1 := { s.setFiber i { Fiber.zero with state := if suspended then .suspended else .ready }
                with nfiber := i + 1, schedReady := true }
    let s2 := if pTid = 0 then s1 else s1.poke pTid (0x1000 + i)
    s2.return_ (threadBase + i) []

def resumeThread (h : ℕ) : Sys × List Note :=
  match s.threadIdx h with
  | some i =>
    if (s.fiber i).state = .suspended then
      (s.setFiber i { s.fiber i with state := .ready }).return_ 1 []
    else s.return_ 0 []
  | none => s.return_ 0xFFFFFFFF []

def exitThread (code : ℕ) : Sys × List Note :=
  if s.cur = 0 then ({ s with mode := .exited }, [])
  else ((s.setMe { s.me with lastError := s.lastError }).finish code, [.ended s.cur])

/-- The end of `u32_fiber_trampoline`; the process ends when its main thread does. -/
def returnThread (code : ℕ) : Sys × List Note :=
  if s.cur = 0 then ({ s with mode := .exited }, []) else (s.finish code, [.ended s.cur])

def terminateThread (h code : ℕ) : Sys × List Note :=
  match s.threadResolve h with
  | some i =>
    if i = s.cur then s.exitThread code
    else (s.setFiber i { s.fiber i with exitCode := code, state := .done }).return_ 1 [.ended i]
  | none => s.return_ 0 []

/-- `GetExitCodeThread`; 259 is `STILL_ACTIVE`. -/
def getExitCodeThread (h out : ℕ) : Sys × List Note :=
  match s.threadIdx h with
  | some i =>
    let code := if s.isDone i then (s.fiber i).exitCode else 259
    (if out = 0 then s else s.poke out code).return_ 1 []
  | none => (if out = 0 then s else s.poke out 0).return_ 0 []

/-! #### Waits -/

/-- `u32_waitable`. -/
def waitable (h : ℕ) : Bool :=
  (s.threadIdx h).isSome || (s.objs.eventIdx h).isSome || (s.objs.mutexIdx h).isSome ||
    (s.objs.semIdx h).isSome

def waitForSingleObject (h ms : ℕ) : Sys × List Note :=
  if s.waitable h then s.wait (.own h) true ms else s.return_ 0 []

/-- The `n` handles lie in the program's memory, so `n` is far below the range of an `int`. -/
def waitForMultipleObjects (n ph : ℕ) (all : Bool) (ms : ℕ) : Sys × List Note :=
  if ph = 0 ∨ n = 0 then s.return_ 0 []
  else if (s.handles (.array ph n)).any s.waitable then s.wait (.array ph n) all ms
  else s.return_ 0 []

/-! #### Events, mutexes and semaphores -/

/-- `u32_create_event`; `nh` is the hash of the name. -/
def createEvent (manual initial : Bool) (nh : ℕ) : Sys × List Note :=
  match s.objs.eventNamed nh with
  | some i => s.fail 183 (eventBase + i)
  | none =>
    if maxEvent ≤ s.objs.nevent then s.fail 8 0
    else
      let i := s.objs.nevent
      s.quick { s.objs.setEvent i ⟨manual, initial, nh⟩ with nevent := i + 1 } (eventBase + i) []

def setEvent (h : ℕ) (signaled : Bool) : Sys × List Note :=
  match s.objs.eventIdx h with
  | some i => s.quick (s.objs.setEvent i { s.objs.event i with signaled := signaled }) 1 []
  | none => s.return_ 1 []

/-- `u32_create_mutex`. -/
def createMutex (initialOwner : Bool) (nh : ℕ) : Sys × List Note :=
  match s.objs.mutexNamed nh with
  | some i => s.fail 183 (mutexBase + i)
  | none =>
    if maxMutex ≤ s.objs.nmutex then s.fail 8 0
    else
      let i := s.objs.nmutex
      let m : MutexObj := if initialOwner then ⟨s.cur + 1, 1, nh⟩ else ⟨0, 0, nh⟩
      s.quick { s.objs.setMutex i m with nmutex := i + 1 } (mutexBase + i)
        (if initialOwner then [Note.took (.mutex i) s.cur] else [])

def openMutex (nh : ℕ) : Sys × List Note :=
  match s.objs.mutexNamed nh with
  | some i => s.return_ (mutexBase + i) []
  | none => s.fail 2 0

def releaseMutex (h : ℕ) : Sys × List Note :=
  match s.objs.mutexIdx h with
  | some i =>
    s.quick (s.objs.mutexRelease i s.cur) (if (s.objs.mutex i).owner = s.cur + 1 then 1 else 0)
      [.gave (.mutex i) s.cur]
  | none => s.return_ 0 []

/-- `u32_create_sem`. -/
def createSemaphore (initial max : ℤ) (nh : ℕ) : Sys × List Note :=
  match s.objs.semNamed nh with
  | some i => s.fail 183 (semBase + i)
  | none =>
    if maxSem ≤ s.objs.nsem then s.fail 8 0
    else
      let i := s.objs.nsem
      s.quick { s.objs.setSem i ⟨initial, max, nh⟩ with nsem := i + 1 } (semBase + i)
        [.semCreated i initial max]

def openSemaphore (nh : ℕ) : Sys × List Note :=
  match s.objs.semNamed nh with
  | some i => s.return_ (semBase + i) []
  | none => s.fail 2 0

def releaseSemaphore (h : ℕ) (rel : ℤ) (pPrev : ℕ) : Sys × List Note :=
  match s.objs.semIdx h with
  | some i =>
    let m := s.objs.sem i
    if rel ≤ 0 ∨ m.max < int32 (m.count + rel) then s.fail 298 0
    else
      (if pPrev = 0 then s else s.poke pPrev (word m.count)).quick
        (s.objs.setSem i { m with count := int32 (m.count + rel) }) 1 [.posted i rel]
  | none => s.return_ 0 []

/-- A call that registers a lock or condition variable, or aborts when its table is full. -/
def ensure (o : Option Objs) : Sys × List Note :=
  match o with
  | some o => s.quick o 0 []
  | none => s.abort

def call : Call → Sys × List Note
  | .store a b => (s.pokeByte a (b % 2 ^ 8), [])
  | .setLastError e => { s with lastError := e }.return_ 0 []
  | .returnThread code => s.returnThread code
  | .createThread suspended pTid => s.spawn suspended pTid
  | .resumeThread h => s.resumeThread h
  | .exitThread code => s.exitThread code
  | .terminateThread h code => s.terminateThread h code
  | .getExitCodeThread h out => s.getExitCodeThread h out
  | .sleep ms => s.sleep ms
  | .waitForSingleObject h ms => s.waitForSingleObject h ms
  | .waitForMultipleObjects n ph all ms => s.waitForMultipleObjects n ph all ms
  | .createEvent manual initial nh => s.createEvent manual initial nh
  | .setEvent h => s.setEvent h true
  | .resetEvent h => s.setEvent h false
  | .createMutex initialOwner nh => s.createMutex initialOwner nh
  | .openMutex nh => s.openMutex nh
  | .releaseMutex h => s.releaseMutex h
  | .createSemaphore initial max nh => s.createSemaphore (int32 initial) (int32 max) nh
  | .openSemaphore nh => s.openSemaphore nh
  | .releaseSemaphore h rel pPrev => s.releaseSemaphore h (int32 rel) pPrev
  | .initializeCriticalSection k => s.ensure (s.objs.csEnsure k)
  | .deleteCriticalSection k => s.quick (s.objs.csDelete k) 0 [.dropped (.cs k)]
  | .enterCriticalSection k => s.enterCs k
  | .tryEnterCriticalSection k => s.tryEnterCs k
  | .leaveCriticalSection k => s.quick (s.objs.csLeave k s.cur) 0 [.gave (.cs k) s.cur]
  | .initializeSRWLock k => s.ensure (s.objs.srwEnsure k)
  | .acquireSRWLock k excl => s.acquireSrw k excl
  | .releaseSRWLock k excl =>
    s.quick (s.objs.srwRelease k excl s.cur) 0 [.gave (.srw k excl) s.cur]
  | .tryAcquireSRWLock k excl => s.tryAcquireSrw k excl
  | .initializeConditionVariable k => s.ensure (s.objs.cvEnsure k)
  | .wakeConditionVariable k => s.wake k false
  | .wakeAllConditionVariable k => s.wake k true
  | .sleepConditionVariableSRW cv lock ms shared => s.condvarSleep cv lock false shared ms
  | .sleepConditionVariableCS cv lock ms => s.condvarSleep cv lock true false ms

/-! ### The scheduler -/

/-- Wakes every blocked fiber whose wait condition is satisfied. The predicate reads only
objects and which fibers are done, so the order of the loop does not matter. -/
def wakeRunnable : Sys :=
  { s with fiber := fun i =>
      if i < s.nfiber ∧ (s.fiber i).state = .blocked ∧ s.fiberRunnable i then
        { s.fiber i with state := .ready, timedOut := false }
      else s.fiber i }

def pick : Option ℕ :=
  ((List.range s.nfiber).map fun k => (s.rr + (k + 1)) % s.nfiber).find? fun i =>
    (s.fiber i).state = .ready

/-- `(uint64_t)-1`, which stands for no deadline. -/
def noDeadline : ℕ := 2 ^ 64 - 1

def earliest : ℕ :=
  (List.range s.nfiber).foldl (fun e i =>
    if (s.fiber i).state = .blocked ∧ (s.fiber i).hasTimeout ∧ (s.fiber i).wakeTime < e then
      (s.fiber i).wakeTime
    else e) noDeadline

/-- The clock jumps to a deadline and the fibers whose deadline has come are made ready. -/
def fire (t : ℕ) : Sys :=
  { s with
    vclock := t
    fiber := fun i =>
      if i < s.nfiber ∧ (s.fiber i).state = .blocked ∧ (s.fiber i).hasTimeout ∧
          (s.fiber i).wakeTime ≤ t then
        { s.fiber i with state := .ready, timedOut := true }
      else s.fiber i }

def anyBlocked : Bool := (List.range s.nfiber).any fun i => (s.fiber i).state = .blocked

def switchTo (i : ℕ) : Sys :=
  { s.setFiber i { s.fiber i with state := .running } with
    rr := i, cur := i, lastError := (s.fiber i).lastError, mode := .program }

/-- What the fiber that has been switched to does until it is in the program or parks again. -/
def resume : Sys × List Note :=
  match s.me.cont with
  | .program => (s, [])
  | .wait src all => s.waitWoken src all
  | .sleep => s.sleepWoken
  | .enterCs k => s.enterWoken k
  | .acquireSrw k excl => s.acquireSrwWoken k excl
  | .cvSleep cv lock isCs shared => s.cvSleepWoken cv lock isCs shared
  | .cvReacquire lock isCs shared ret => s.reacquireWoken lock isCs shared ret

/-- A turn of `u32_sched_loop`. When no fiber is ready, it advances the virtual clock to the
earliest deadline, or reports a deadlock, or ends with the last fiber. -/
def turn : Sys × List Note :=
  let s1 := s.wakeRunnable
  match s1.pick with
  | some i => (s1.switchTo i).resume
  | none =>
    if s1.earliest ≠ noDeadline then (s1.fire s1.earliest, [])
    else if s1.anyBlocked then ({ s1 with mode := .deadlock }, [])
    else ({ s1 with mode := .exited }, [])

end Sys

/-! ### Runs -/

/-- What happens next: the running fiber makes a call, or the scheduler takes a turn. -/
inductive Label
  | call (c : Call)
  | turn
  deriving DecidableEq, Repr

def Sys.step (s : Sys) : Label → Option (Sys × List Note)
  | .call c => if s.mode = .program then some (s.call c) else none
  | .turn => if s.mode = .scheduler then some s.turn else none

theorem step_turn {s : Sys} (h : s.mode = .scheduler) :
    s.step .turn = some (s.turn.1, s.turn.2) :=
  if_pos h

/-- The runs of a process whose steps all meet a condition, with the notes of the run, the newest
first. Any fiber may make any calls, so these are the runs of every program of fibers. -/
inductive Run (ok : List Note → Sys → Label → Prop) (mem : ℕ → ℕ) : List Note → Sys → Prop
  | start : Run ok mem [] (.start mem)
  | step {t s l s' ns} :
      Run ok mem t s → ok t s l → s.step l = some (s', ns) → Run ok mem (ns ++ t) s'

/-- Takes the steps in order, as long as each can be taken and meets the condition. -/
def runLabels (ok : List Note → Sys → Label → Prop) [∀ t s l, Decidable (ok t s l)] :
    List Note × Sys → List Label → Option (List Note × Sys)
  | p, [] => some p
  | p, l :: ls =>
    if ok p.1 p.2 l then
      match p.2.step l with
      | some (s', ns) => runLabels ok (ns ++ p.1, s') ls
      | none => none
    else none

theorem run_of_labels {ok : List Note → Sys → Label → Prop} [∀ t s l, Decidable (ok t s l)]
    {mem : ℕ → ℕ} {p q : List Note × Sys} (ls : List Label) (h : runLabels ok p ls = some q)
    (hp : Run ok mem p.1 p.2) : Run ok mem q.1 q.2 := by
  induction ls generalizing p with
  | nil =>
      cases h
      exact hp
  | cons l ls ih =>
      unfold runLabels at h
      split at h
      · rename_i hok
        split at h
        · rename_i s' ns hs
          exact ih h (hp.step hok hs)
        · cases h
      · cases h

end Aret.Threads
