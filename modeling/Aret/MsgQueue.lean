/-
The message queue of a program's windows: posted messages in a ring, timers that
post into it, and the two messages that are made when the ring is empty, WM_QUIT
from a flag and WM_PAINT from the windows.

This is the build without a display, where no input arrives by itself.  A call of
`GetMessageW` is one or more turns of its loop; each is a step of its own, and so
is each turn of a modal dialog, whose window procedures make calls in between.
-/
import Aret.RingBuffer

namespace Aret.Pump

/-- `U32_MAX_MSG`. -/
def maxMsg : ℕ := 8192

/-- `U32_MAX_TIMER`. -/
def maxTimer : ℕ := 64

/-- `U32_MAX_WIN`. -/
def maxWin : ℕ := 256

def wmPaint : UInt32 := 0x000F
def wmQuit : UInt32 := 0x0012
def wmTimer : UInt32 := 0x0113
def pmRemove : UInt32 := 0x0001

structure Msg where
  hwnd : UInt32
  message : UInt32
  wParam : UInt32
  lParam : UInt32
  time : UInt32
  ptx : UInt32
  pty : UInt32
  deriving DecidableEq

structure Timer where
  hwnd : UInt32
  id : UInt32
  elapse : UInt32
  proc : UInt32
  dueNs : UInt64
  used : Bool

def Timer.key (t : Timer) : UInt32 × UInt32 := (t.hwnd, t.id)

/-- A slot of the window table, as far as painting is about it. -/
structure Win where
  used : Bool
  visible : Bool
  parent : UInt32
  needsPaint : Bool

/-- A message that entered the ring, with the timer that posted it if one did. -/
structure Sent where
  msg : Msg
  timer : Option (UInt32 × UInt32)
  deriving DecidableEq

/-- The globals. Of the history, `sent` is what entered the ring, `got` what was removed from it,
`asked` how often `PostQuitMessage` was called and `told` how often WM_QUIT was removed. -/
structure Queue where
  ring : RingBuffer maxMsg Msg
  timer : ℕ → Timer
  nextTimerId : UInt32
  quit : Bool
  quitCode : UInt32
  win : ℕ → Win
  sent : List Sent
  got : List Msg
  asked : ℕ
  told : ℕ

/-- The calls; `window` is any other call that leaves a window changed. -/
inductive Call
  | postMessage (hwnd msg wParam lParam : UInt32)
  | peekMessage (remove : UInt32)
  | getMessage
  | modalPump
  | setTimer (hwnd id elapse proc : UInt32)
  | killTimer (hwnd id : UInt32)
  | postQuitMessage (code : UInt32)
  | invalidateRect (hwnd : UInt32)
  | validateRect (hwnd : UInt32)
  | window (i : ℕ) (w : Win)

/-- What a call answers: a result, or the message it found and where. A turn of a loop that finds
none `waits`, with a warning if nothing can arrive any more. -/
inductive Answer
  | result (v : UInt32)
  | message (m : Msg)
  | quit (m : Msg)
  | paint (m : Msg)
  | nothing
  | waits (warns : Bool)
  deriving DecidableEq

def stamp (ns : UInt64) : UInt32 := (ns / 1000000).toUInt32

/-- `u32_fill_paint`. -/
def fillPaint (i : ℕ) (ns : UInt64) : Msg := ⟨i.toUInt32 + 1, wmPaint, 0, 0, stamp ns, 0, 0⟩

namespace Queue

def start : Queue where
  ring := .empty ⟨0, 0, 0, 0, 0, 0, 0⟩ (by decide)
  timer := fun _ => ⟨0, 0, 0, 0, 0, false⟩
  nextTimerId := 0xF000
  quit := false
  quitCode := 0
  win := fun _ => ⟨false, false, 0, false⟩
  sent := []
  got := []
  asked := 0
  told := 0

variable (s : Queue)

/-! ### The ring -/

/-- `u32_q_push`, which says whether there was room. -/
def push (hwnd msg wParam lParam : UInt32) (ns : UInt64) (who : Option (UInt32 × UInt32)) :
    Bool × Queue :=
  let m : Msg := ⟨hwnd, msg, wParam, lParam, stamp ns, 0, 0⟩
  match s.ring.push m with
  | none => (false, s)
  | some r => (true, { s with ring := r, sent := s.sent ++ [⟨m, who⟩] })

/-- `u32_q_peek_copy`. -/
def peekCopy (remove : Bool) : Answer × Queue :=
  (.message s.ring.front,
    if remove then { s with ring := s.ring.pop, got := s.got ++ [s.ring.front] } else s)

/-! ### Timers -/

/-- The timer in slot `i` has expired. -/
def due (now : UInt64) (i : ℕ) : Bool := (s.timer i).used && (s.timer i).dueNs ≤ now

/-- A turn of the loop of `u32_pump_timers`: the result of the push is not looked at. -/
def pumpTimer (clock : ℕ → UInt64) (s : Queue) (i : ℕ) : Queue :=
  if s.due (clock 0) i then
    let t := s.timer i
    let p := (s.push t.hwnd wmTimer t.id t.proc (clock (i + 1)) (some t.key)).2
    let t' : Timer := { t with dueNs := clock 0 + t.elapse.toUInt64 * 1000000 }
    { p with timer := Function.update p.timer i t' }
  else s

/-- `u32_pump_timers`. -/
def pumpTimers (clock : ℕ → UInt64) : Queue := (List.range maxTimer).foldl (pumpTimer clock) s

/-- `u32_any_timer`. -/
def anyTimer : Bool := (List.range maxTimer).any fun i => (s.timer i).used

def timerAt (k : UInt32 × UInt32) : Option ℕ :=
  (List.range maxTimer).find? fun i => (s.timer i).used && (s.timer i).key == k

def timerSlot (k : UInt32 × UInt32) : Option ℕ :=
  match s.timerAt k with
  | some i => some i
  | none => (List.range maxTimer).find? fun i => !(s.timer i).used

def setTimer (hwnd id elapse proc : UInt32) (now : UInt64) : Answer × Queue :=
  let fresh := hwnd = 0 ∧ id = 0
  let k := if fresh then s.nextTimerId else id
  let s' := if fresh then { s with nextTimerId := s.nextTimerId + 1 } else s
  match s'.timerSlot (hwnd, k) with
  | none => (.result 0, s')
  | some i =>
    let t : Timer := ⟨hwnd, k, elapse, proc, now + elapse.toUInt64 * 1000000, true⟩
    (.result k, { s' with timer := Function.update s'.timer i t })

/-- `KillTimer`: what the timer has posted stays in the ring. -/
def killTimer (hwnd id : UInt32) : Answer × Queue :=
  match s.timerAt (hwnd, id) with
  | none => (.result 0, s)
  | some i =>
    (.result 1, { s with timer := Function.update s.timer i { s.timer i with used := false } })

/-! ### WM_QUIT and WM_PAINT -/

def postQuitMessage (code : UInt32) : Queue :=
  { s with quit := true, quitCode := code, asked := s.asked + 1 }

/-- `u32_fill_quit`. -/
def fillQuit (ns : UInt64) : Msg := ⟨0, wmQuit, s.quitCode, 0, stamp ns, 0, 0⟩

def tell (remove : Bool) : Queue := if remove then { s with told := s.told + 1 } else s

/-- `u32_win_paints`. -/
def winPaints (i : ℕ) : Bool := (s.win i).used && (s.win i).visible && (s.win i).parent == 0

/-- `u32_next_paint`. -/
def nextPaint : Option ℕ :=
  (List.range maxWin).find? fun i => (s.win i).needsPaint && s.winPaints i

/-- `u32_win_idx`. -/
def winIdx (hwnd : UInt32) : Option ℕ :=
  if 1 ≤ hwnd.toNat ∧ hwnd.toNat ≤ maxWin ∧ (s.win (hwnd.toNat - 1)).used = true then
    some (hwnd.toNat - 1)
  else none

def setPaint (i : ℕ) (b : Bool) : Queue :=
  { s with win := Function.update s.win i { s.win i with needsPaint := b } }

/-- `InvalidateRect`, of every window if none is given. -/
def invalidateRect (hwnd : UInt32) : Queue :=
  if hwnd = 0 then
    (List.range maxWin).foldl (fun t i => if t.winPaints i then t.setPaint i true else t) s
  else
    match s.winIdx hwnd with
    | none => s
    | some i => if s.winPaints i then s.setPaint i true else s

def validateRect (hwnd : UInt32) : Queue :=
  match s.winIdx hwnd with
  | none => s
  | some i => s.setPaint i false

/-! ### Calls -/

/-- The last branches of `PeekMessageW` and `GetMessageW`, when the ring is empty: `last` is what is
done when nothing is pending. -/
def otherwise (remove : Bool) (ns : UInt64) (last : Answer) : Answer × Queue :=
  if s.quit then (.quit (s.fillQuit ns), s.tell remove)
  else
    match s.nextPaint with
    | some i => (.paint (fillPaint i ns), s)
    | none => (last, s)

/-- `PeekMessageW` without a filter. -/
def peekMessage (remove : UInt32) (clock : ℕ → UInt64) : Answer × Queue :=
  let p := s.pumpTimers clock
  if p.ring.isEmpty = false then p.peekCopy (remove &&& pmRemove != 0)
  else p.otherwise (remove &&& pmRemove != 0) (clock (maxTimer + 1)) .nothing

/-- A turn of the loop of `GetMessageW`. -/
def getMessage (clock : ℕ → UInt64) : Answer × Queue :=
  let p := s.pumpTimers clock
  if p.ring.isEmpty = false then p.peekCopy true
  else p.otherwise true (clock (maxTimer + 1)) (.waits !p.anyTimer)

/-- A turn of the loop of `u32_dialog_modal`, up to the dispatch of what it finds. -/
def modalPump (clock : ℕ → UInt64) : Answer × Queue :=
  let p := s.pumpTimers clock
  if p.ring.isEmpty = false then p.peekCopy true else (.waits true, p)

/-- A call; `clock` is what `mono_ns` answers at the places of the call that ask for the time. -/
def step (clock : ℕ → UInt64) : Call → Answer × Queue
  | .postMessage hwnd msg wParam lParam =>
    let p := s.push hwnd msg wParam lParam (clock 0) none
    (.result (if p.1 then 1 else 0), p.2)
  | .peekMessage remove => s.peekMessage remove clock
  | .getMessage => s.getMessage clock
  | .modalPump => s.modalPump clock
  | .setTimer hwnd id elapse proc => s.setTimer hwnd id elapse proc (clock 0)
  | .killTimer hwnd id => s.killTimer hwnd id
  | .postQuitMessage code => (.result 0, s.postQuitMessage code)
  | .invalidateRect hwnd => (.result 1, s.invalidateRect hwnd)
  | .validateRect hwnd => (.result 1, s.validateRect hwnd)
  | .window i w => (.result 1, { s with win := Function.update s.win i w })

end Queue

end Aret.Pump
