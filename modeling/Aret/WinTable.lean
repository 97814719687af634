/-
The window table and the tables that are kept beside it under a window's handle:
properties, menus, the queue of messages with its timers, and the focus.

A handle is a slot of the table plus one.  Destroying a window only marks its slot
free; a new window takes the first free slot.  A call of `CreateWindowEx` is a
`window`, and one of the dialog calls is a `dialog` with a `control` for each of
its items; the hooks and window procedures that run meanwhile make calls of their
own, and one that rejects its window destroys it.
-/
import Aret.MsgPump
import Aret.WinOwn

namespace Aret.Wnd

/-- `U32_MAX_WIN`. -/
def maxWin : ℕ := 256

/-- `U32_MAX_PROP`. -/
def maxProp : ℕ := 256

/-- `U32_MAX_MENUS`. -/
def maxMenu : ℕ := 128

def handle (i : ℕ) : UInt32 := i.toUInt32 + 1

structure PropSlot where
  hwnd : UInt32
  key : Text
  val : UInt32
  used : Bool

structure Table where
  win : ℕ → Win
  prop : ℕ → PropSlot
  wmenu : ℕ → UInt32
  wsysmenu : ℕ → UInt32
  menuUsed : ℕ → Bool
  queue : Pump.Queue
  focus : UInt32

/-- The arguments of `CreateWindowEx` that the record keeps; of its class the window procedure, the
name, and whether it is a predefined control. -/
structure Args where
  wndproc : UInt32
  classname : String
  isCtrl : Bool
  exstyle : UInt32
  style : UInt32
  title : Text
  parent : UInt32
  menuOrId : UInt32

structure DialogArgs where
  dlgproc : UInt32
  style : UInt32
  title : Text
  parent : UInt32

structure ControlArgs where
  parent : UInt32
  id : UInt32
  style : UInt32
  title : Text
  classname : String
  font : UInt32

inductive Call
  | window (wide : Bool) (a : Args)
  | dialog (a : DialogArgs)
  | control (a : ControlArgs)
  | destroyWindow (h : UInt32)
  | destroyDialog (h : UInt32)
  | ask (h : UInt32) (q : Ask)
  | checkDlgButton (h id : UInt32) (v : Int32)
  | isDlgButtonChecked (h id : UInt32)
  | click (h : UInt32)
  | setProp (h : UInt32) (k : Text) (v : UInt32)
  | getProp (h : UInt32) (k : Text)
  | removeProp (h : UInt32) (k : Text)
  | createMenu
  | destroyMenu (m : UInt32)
  | setMenu (h m : UInt32)
  | getMenu (h : UInt32)
  | getSystemMenu (h : UInt32) (revert : Bool)
  | queue (c : Pump.Call)
  | setFocus (h : UInt32)

namespace Table

def start : Table where
  win := fun _ => .zero
  prop := fun _ => ⟨0, [], 0, false⟩
  wmenu := fun _ => 0
  wsysmenu := fun _ => 0
  menuUsed := fun _ => false
  queue := .start
  focus := 0

variable (s : Table)

/-! ### Windows -/

/-- `u32_win_idx`. -/
def winIdx (h : UInt32) : Option ℕ :=
  if 1 ≤ h.toNat ∧ h.toNat ≤ maxWin ∧ (s.win (h.toNat - 1)).used = true then some (h.toNat - 1)
  else none

def freeWin : Option ℕ := (List.range maxWin).find? fun i => !(s.win i).used

def setWin (i : ℕ) (w : Win) : Table := { s with win := Function.update s.win i w }

/-- `WS_CHILD`. -/
def isChild (style : UInt32) : Bool := style &&& 0x40000000 ≠ 0

/-- The fields that `u32_window_create` writes; the others stay as the slot has them. -/
def fill (w : Win) (wndproc exstyle style parent : UInt32) (title : Text) : Win :=
  { w with
    used := true
    scroll := fun _ => ⟨0, 0, 0, 0⟩
    ctrlFont := 0
    wndproc := wndproc
    parent := parent
    exstyle := exstyle
    style := style
    userdata := 0
    ctrlId := 0
    classname := ""
    items := []
    curSel := 0xFFFFFFFF
    rgn := none
    extra := fun _ => 0
    title := title.take 255 }

/-- `u32_window_create`: the slot it took. -/
def windowCreate (wndproc exstyle style parent : UInt32) (title : Text) (isCtrl : Bool) :
    Option (ℕ × Table) :=
  if wndproc = 0 ∧ isCtrl = false then none
  else
    match s.freeWin with
    | none => none
    | some i => some (i, s.setWin i (fill (s.win i) wndproc exstyle style parent title))

/-- What `CreateWindowExW` and `CreateWindowExA` add: only the first writes whether the window is
Unicode. -/
def addClass (wide : Bool) (a : Args) (w : Win) : Win :=
  { w with
    classname := a.classname
    unicode := if wide then true else w.unicode
    ctrlId := if isChild a.style then a.menuOrId else w.ctrlId }

def window (wide : Bool) (a : Args) : Ans × Table :=
  match s.windowCreate a.wndproc a.exstyle a.style a.parent a.title a.isCtrl with
  | none => (.value 0, s)
  | some (i, t) => (.value (handle i), t.setWin i (addClass wide a (t.win i)))

/-- The window of `u32_dialog_create`. -/
def dialog (a : DialogArgs) : Ans × Table :=
  match s.windowCreate a.dlgproc 0 a.style a.parent a.title false with
  | none => (.value 0, s)
  | some (i, t) => (.value (handle i), t)

/-- `u32_new_control`, which clears the whole entry first. -/
def controlWin (a : ControlArgs) : Win :=
  { Win.zero with
    used := true
    parent := a.parent
    style := a.style
    ctrlId := a.id
    curSel := 0xFFFFFFFF
    classname := a.classname
    title := a.title.take 255
    ctrlFont := a.font }

def control (a : ControlArgs) : Ans × Table :=
  match s.freeWin with
  | none => (.value 0, s)
  | some i => (.value (handle i), s.setWin i (controlWin a))

/-- `DestroyWindow`: only the mark of the slot changes. -/
def destroyWindow (h : UInt32) : Table :=
  match s.winIdx h with
  | none => s
  | some i => s.setWin i { s.win i with used := false }

/-- `u32_dialog_destroy`: the dialog and its controls. -/
def destroyDialog (h : UInt32) : Table :=
  { s with win := fun i =>
      if i < maxWin ∧ (s.win i).used = true ∧ (handle i = h ∨ (s.win i).parent = h) then
        { s.win i with used := false }
      else s.win i }

/-- A call about the record of a window; there is nothing to do if it is gone. -/
def ask (h : UInt32) (q : Ask) : Ans × Table :=
  match s.winIdx h with
  | none => (.value 0, s)
  | some i => let p := (s.win i).ask q; (p.1, s.setWin i p.2)

/-- `u32_dlg_ctrl`. -/
def dlgCtrl (h id : UInt32) : Option ℕ :=
  match s.winIdx h with
  | none => none
  | some d => (List.range maxWin).find? fun i =>
      (s.win i).used && (s.win i).parent == handle d && (s.win i).ctrlId == id

def askCtrl (h id : UInt32) (q : Ask) : Ans × Table :=
  match s.dlgCtrl h id with
  | none => (.value 0, s)
  | some i => let p := (s.win i).ask q; (p.1, s.setWin i p.2)

/-- A radio button of the group of the one in slot `i`. -/
def sameGroup (i k : ℕ) : Bool :=
  (s.win i).buttonType == 9 && (s.win k).used && (s.win k).parent == (s.win i).parent &&
    (s.win k).buttonType == 9

/-- `u32_ctrl_click`: a radio button clears its group. -/
def click (h : UInt32) : Table :=
  match s.winIdx h with
  | none => s
  | some i =>
    if (s.win i).isClass "button" then
      { s with win := fun k =>
          if k = i then (s.win i).click
          else if k < maxWin ∧ s.sameGroup i k = true then { s.win k with checkState := 0 }
          else s.win k }
    else s

/-! ### Properties -/

/-- `u32_prop_find`. -/
def propFind (h : UInt32) (k : Text) : Option ℕ :=
  (List.range maxProp).find? fun j =>
    (s.prop j).used && (s.prop j).hwnd == h && (s.prop j).key == k

def freeProp : Option ℕ := (List.range maxProp).find? fun j => !(s.prop j).used

/-- `u32_set_prop`, which cuts the name to the 64 bytes of an entry. -/
def setProp (h : UInt32) (k : Text) (v : UInt32) : Ans × Table :=
  match (s.propFind h k).orElse fun _ => s.freeProp with
  | none => (.value 0, s)
  | some j => (.value 1, { s with prop := Function.update s.prop j ⟨h, k.take 63, v, true⟩ })

/-- `u32_get_prop`. -/
def getProp (h : UInt32) (k : Text) : UInt32 :=
  match s.propFind h k with
  | none => 0
  | some j => (s.prop j).val

/-- `u32_rm_prop`. -/
def removeProp (h : UInt32) (k : Text) : Ans × Table :=
  match s.propFind h k with
  | none => (.value 0, s)
  | some j =>
    let p : PropSlot := { s.prop j with used := false }
    (.value (s.prop j).val, { s with prop := Function.update s.prop j p })

/-! ### Menus -/

/-- `u32_menu_idx`. -/
def menuIdx (m : UInt32) : Option ℕ :=
  let i := (m &&& 0x00FFFFFF).toNat
  if m &&& 0xFF000000 = 0x40000000 ∧ i < maxMenu ∧ s.menuUsed i = true then some i else none

/-- `u32_menu_new`; a new menu's handle, or 0. -/
def menuNew : UInt32 × Table :=
  match (List.range maxMenu).find? fun i => decide (i ≠ 0) && !s.menuUsed i with
  | none => (0, s)
  | some i =>
    (0x40000000 ||| i.toUInt32, { s with menuUsed := Function.update s.menuUsed i true })

def destroyMenu (m : UInt32) : Ans × Table :=
  match s.menuIdx m with
  | none => (.value 0, s)
  | some i => (.value 1, { s with menuUsed := Function.update s.menuUsed i false })

def setMenu (h m : UInt32) : Ans × Table :=
  match s.winIdx h with
  | none => (.value 0, s)
  | some i => (.value 1, { s with wmenu := Function.update s.wmenu i m })

def getMenu (h : UInt32) : UInt32 :=
  match s.winIdx h with
  | none => 0
  | some i => s.wmenu i

/-- `GetSystemMenu`, which makes the menu at the first call. -/
def getSystemMenu (h : UInt32) (revert : Bool) : Ans × Table :=
  match s.winIdx h with
  | none => (.value 0, s)
  | some i =>
    if revert then
      let t := (s.destroyMenu (s.wsysmenu i)).2
      (.value 0, { t with wsysmenu := Function.update t.wsysmenu i 0 })
    else if s.wsysmenu i = 0 then
      let p := s.menuNew
      (.value p.1, { p.2 with wsysmenu := Function.update p.2.wsysmenu i p.1 })
    else (.value (s.wsysmenu i), s)

/-! ### Focus -/

def listens (h : UInt32) : Bool :=
  match s.winIdx h with
  | none => false
  | some i => (s.win i).wndproc ≠ 0

/-- `u32_set_focus`, with the windows it calls and the messages WM_KILLFOCUS and WM_SETFOCUS. -/
def setFocus (h : UInt32) : Ans × Table :=
  if h = s.focus then (.focus s.focus [], s)
  else
    (.focus s.focus
      ((if s.listens s.focus then [(s.focus, 8)] else []) ++ if s.listens h then [(h, 7)] else []),
      { s with focus := h })

/-! ### Calls -/

def step (clock : ℕ → UInt64) : Call → Ans × Table
  | .window wide a => s.window wide a
  | .dialog a => s.dialog a
  | .control a => s.control a
  | .destroyWindow h => (.value 1, s.destroyWindow h)
  | .destroyDialog h => (.value 0, s.destroyDialog h)
  | .ask h q => s.ask h q
  | .checkDlgButton h id v => s.askCtrl h id (.checkDlgButton v)
  | .isDlgButtonChecked h id => s.askCtrl h id .isDlgButtonChecked
  | .click h => (.value 0, s.click h)
  | .setProp h k v => s.setProp h k v
  | .getProp h k => (.value (s.getProp h k), s)
  | .removeProp h k => s.removeProp h k
  | .createMenu => let p := s.menuNew; (.value p.1, p.2)
  | .destroyMenu m => s.destroyMenu m
  | .setMenu h m => s.setMenu h m
  | .getMenu h => (.value (s.getMenu h), s)
  | .getSystemMenu h revert => s.getSystemMenu h revert
  | .queue c => (.value 0, { s with queue := (s.queue.step clock c).2 })
  | .setFocus h => s.setFocus h

/-! ### One window -/

/-- What the tables hold of the window in slot `i`. -/
def view (i : ℕ) : Own where
  win := s.win i
  prop := fun k => (s.propFind (handle i) k).map fun j => (s.prop j).val
  menu := s.wmenu i
  sysmenu := s.wsysmenu i

/-- What a call is for the window in slot `i`, if it is about it. -/
def eff (i : ℕ) : Call → Option Eff
  | .ask h q => if s.winIdx h = some i then some (.ask q) else none
  | .checkDlgButton h id v =>
    if s.dlgCtrl h id = some i then some (.ask (.checkDlgButton v)) else none
  | .isDlgButtonChecked h id => if s.dlgCtrl h id = some i then some (.ask .isDlgButtonChecked) else none
  | .click h =>
    match s.winIdx h with
    | none => none
    | some j =>
      if (s.win j).isClass "button" then
        if i = j then some .click
        else if i < maxWin ∧ s.sameGroup j i = true then some .uncheck
        else none
      else none
  | .setProp h k v => if h = handle i then some (.setProp k v s.freeProp.isSome) else none
  | .getProp h k => if h = handle i then some (.getProp k) else none
  | .removeProp h k => if h = handle i then some (.removeProp k) else none
  | .setMenu h m => if s.winIdx h = some i then some (.setMenu m) else none
  | .getMenu h => if s.winIdx h = some i then some .getMenu else none
  | .getSystemMenu h revert =>
    if s.winIdx h = some i then some (.getSystemMenu revert s.menuNew.1) else none
  | _ => none

end Table

end Aret.Wnd
