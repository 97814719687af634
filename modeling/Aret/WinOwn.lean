/-
One window: its record in the window table, and what the program can ask of it and
set in it.
-/
import Mathlib.Data.List.Basic
import Mathlib.Logic.Function.Basic

namespace Aret.Wnd

abbrev Text := List UInt8

structure Scroll where
  lo : Int32
  hi : Int32
  page : Int32
  pos : Int32
  deriving DecidableEq

structure Rgn where
  left : Int32
  top : Int32
  right : Int32
  bottom : Int32
  complex : Bool
  deriving DecidableEq

/-- An entry of `g_u32_win`, less geometry and painting. Of a region that is not set nothing is
read. -/
structure Win where
  wndproc : UInt32
  parent : UInt32
  used : Bool
  style : UInt32
  exstyle : UInt32
  userdata : UInt32
  title : Text
  ctrlId : UInt32
  classname : String
  unicode : Bool
  checkState : Int32
  ctrlFont : UInt32
  extra : ℕ → UInt8
  scroll : ℕ → Scroll
  items : List Text
  curSel : UInt32
  rgn : Option Rgn

def Win.zero : Win where
  wndproc := 0
  parent := 0
  used := false
  style := 0
  exstyle := 0
  userdata := 0
  title := []
  ctrlId := 0
  classname := ""
  unicode := false
  checkState := 0
  ctrlFont := 0
  extra := fun _ => 0
  scroll := fun _ => ⟨0, 0, 0, 0⟩
  items := []
  curSel := 0
  rgn := none

/-- The calls and messages that are about the record of one window. -/
inductive Ask
  | setText (t : Text)
  | getText (cap : UInt32)
  | textLength
  | getLong (n : Int32)
  | setLong (n : Int32) (v : UInt32)
  | isUnicode
  | setScrollRange (bar : UInt32) (lo hi : Int32)
  | setScrollPos (bar : UInt32) (pos : Int32)
  | setScrollInfo (bar mask : UInt32) (s : Scroll)
  | getScroll (bar : UInt32)
  | setRgn (r : Option Rgn)
  | getRgn
  | setFont (v : UInt32)
  | getFont
  | getCheck
  | setCheck (v : Int32)
  | checkDlgButton (v : Int32)
  | isDlgButtonChecked
  | addString (t : Text)
  | insertString (n : UInt32) (t : Text)
  | deleteString (n : UInt32)
  | resetContent
  | getCount
  | setCurSel (n : UInt32)
  | getCurSel
  | getItem (n : UInt32)

/-- What a call answers, with what it writes for its caller. -/
inductive Ans
  | value (v : UInt32)
  | text (n : UInt32) (t : Text)
  | scroll (s : Scroll)
  | rgn (kind : UInt32) (r : Rgn)
  | focus (old : UInt32) (sent : List (UInt32 × UInt32))
  deriving DecidableEq

/-- `u32_sb_clamp`. -/
def Scroll.clamp (withPage : Bool) (s : Scroll) : Scroll :=
  let hi := s.hi - (if withPage && 0 < s.page then s.page - 1 else 0)
  let hi := if hi < s.lo then s.lo else hi
  let pos := if s.pos < s.lo then s.lo else s.pos
  { s with pos := if hi < pos then hi else pos }

/-- `u32_rgn_type`. -/
def Rgn.kind (r : Rgn) : UInt32 :=
  if r.right ≤ r.left ∨ r.bottom ≤ r.top then 1 else if r.complex then 3 else 2

namespace Win

variable (w : Win)

def isClass (name : String) : Bool := w.classname.toLower == name

def isList : Bool := w.isClass "listbox" || w.isClass "combobox"

/-- `u32_ctrl_paintable`. -/
def isControl : Bool :=
  w.isClass "button" || w.isClass "static" || w.isClass "edit" || w.isList

/-- `u32_defproc_text`, with the text cut to the 256 bytes of the entry. -/
def setText (t : Text) : Win := { w with title := t.take 255 }

def getText (cap : UInt32) : Ans :=
  if cap = 0 then .value 0
  else
    let t := w.title.take (cap.toNat - 1)
    .text t.length.toUInt32 t

def extraWord (o : ℕ) : UInt32 :=
  (w.extra o).toUInt32 ||| (w.extra (o + 1)).toUInt32 <<< 8 |||
    (w.extra (o + 2)).toUInt32 <<< 16 ||| (w.extra (o + 3)).toUInt32 <<< 24

def setExtraWord (o : ℕ) (v : UInt32) : Win :=
  { w with extra := fun k =>
      if o ≤ k ∧ k < o + 4 then (v >>> (8 * (k - o)).toUInt32).toUInt8 else w.extra k }

/-- The extra bytes hold a word at `n`. -/
def inExtra (n : Int32) : Bool := 0 ≤ n && n.toInt + 4 ≤ 64

/-- `GetWindowLong`. -/
def getLong (n : Int32) : UInt32 :=
  if n = -16 then w.style
  else if n = -20 then w.exstyle
  else if n = -21 then w.userdata
  else if n = -4 then w.wndproc
  else if n = -8 then w.parent
  else if inExtra n then w.extraWord n.toInt.toNat
  else 0

/-- `SetWindowLong`, which answers the value before. -/
def setLong (n : Int32) (v : UInt32) : UInt32 × Win :=
  if n = -16 then (w.style, { w with style := v })
  else if n = -20 then (w.exstyle, { w with exstyle := v })
  else if n = -21 then (w.userdata, { w with userdata := v })
  else if n = -4 then (w.wndproc, { w with wndproc := v })
  else if inExtra n then (w.extraWord n.toInt.toNat, w.setExtraWord n.toInt.toNat v)
  else (0, w)

def setScroll (bar : UInt32) (s : Scroll) : Win :=
  { w with scroll := Function.update w.scroll bar.toNat s }

/-- `SetScrollRange`, `SetScrollPos` and `SetScrollInfo`: a new state of a bar. -/
def updScroll (bar : UInt32) (withPage : Bool) (f : Scroll → Scroll) (ans : Scroll → Scroll → UInt32) :
    Ans × Win :=
  if bar ≤ 2 then
    let old := w.scroll bar.toNat
    let new := (f old).clamp withPage
    (.value (ans old new), w.setScroll bar new)
  else (.value 0, w)

/-- The fields that the mask of `SetScrollInfo` names. -/
def maskScroll (mask : UInt32) (new old : Scroll) : Scroll where
  lo := if mask &&& 1 ≠ 0 then new.lo else old.lo
  hi := if mask &&& 1 ≠ 0 then new.hi else old.hi
  page := if mask &&& 2 ≠ 0 then new.page else old.page
  pos := if mask &&& 4 ≠ 0 then new.pos else old.pos

/-- `u32_items_insert`. -/
def insertItem (n : ℕ) (t : Text) : Ans × Win :=
  let p := min n w.items.length
  (.value p.toUInt32, { w with items := w.items.insertIdx p t })

def askList : Ask → Ans × Win
  | .addString t => w.insertItem w.items.length t
  | .insertString n t => w.insertItem n.toNat t
  | .deleteString n =>
    let l := w.items.eraseIdx n.toNat
    (.value l.length.toUInt32, { w with items := l })
  | .resetContent => (.value 0, { w with items := [], curSel := 0xFFFFFFFF })
  | .getCount => (.value w.items.length.toUInt32, w)
  | .setCurSel n => (.value n, { w with curSel := n })
  | .getCurSel => (.value w.curSel, w)
  | .getItem n =>
    match w.items[n.toNat]? with
    | none => (.value 0xFFFFFFFF, w)
    | some t => (.text t.length.toUInt32 t, w)
  | _ => (.value 0, w)

def ask : Ask → Ans × Win
  | .setText t => (.value 1, w.setText t)
  | .getText cap => (w.getText cap, w)
  | .textLength => (.value w.title.length.toUInt32, w)
  | .getLong n => (.value (w.getLong n), w)
  | .setLong n v => let p := w.setLong n v; (.value p.1, p.2)
  | .isUnicode => (.value (if w.unicode then 1 else 0), w)
  | .setScrollRange bar lo hi =>
    w.updScroll bar false (fun s => { s with lo := lo, hi := hi }) fun _ _ => 1
  | .setScrollPos bar pos =>
    w.updScroll bar false (fun s => { s with pos := pos }) fun old _ => old.pos.toUInt32
  | .setScrollInfo bar mask s =>
    w.updScroll bar true (maskScroll mask s) fun _ new => new.pos.toUInt32
  | .getScroll bar => if bar ≤ 2 then (.scroll (w.scroll bar.toNat), w) else (.value 0, w)
  | .setRgn r => (.value 1, { w with rgn := r })
  | .getRgn =>
    match w.rgn with
    | none => (.value 0, w)
    | some r => (.rgn r.kind r, w)
  | .setFont v => (.value 0, if w.isControl then { w with ctrlFont := v } else w)
  | .getFont => (.value (if w.isControl then w.ctrlFont else 0), w)
  | .getCheck => (.value (if w.isClass "button" then w.checkState.toUInt32 else 0), w)
  | .setCheck v => (.value 0, if w.isClass "button" then { w with checkState := v } else w)
  | .checkDlgButton v => (.value 1, { w with checkState := v })
  | .isDlgButtonChecked => (.value w.checkState.toUInt32, w)
  | q => if w.isList then w.askList q else (.value 0, w)

def buttonType : UInt32 := w.style &&& 0xF

/-- `u32_ctrl_click` on the button itself. -/
def click : Win :=
  if w.buttonType = 3 then { w with checkState := if w.checkState ≠ 0 then 0 else 1 }
  else if w.buttonType = 6 then { w with checkState := (w.checkState + 1) % 3 }
  else if w.buttonType = 9 then { w with checkState := 1 }
  else w

end Win

/-! ### A window with its properties and menus -/

structure Own where
  win : Win
  prop : Text → Option UInt32
  menu : UInt32
  sysmenu : UInt32

/-- What happens to a window; from the tables that all windows share come whether there is room for
a property, and the handle of a new menu. -/
inductive Eff
  | ask (q : Ask)
  | click
  /-- Another radio button of the group is clicked. -/
  | uncheck
  | setProp (k : Text) (v : UInt32) (room : Bool)
  | getProp (k : Text)
  | removeProp (k : Text)
  | setMenu (v : UInt32)
  | getMenu
  | getSystemMenu (revert : Bool) (new : UInt32)

namespace Own

variable (o : Own)

def setProp (k : Text) (v : UInt32) : Own := { o with prop := Function.update o.prop k (some v) }

def act : Eff → Ans × Own
  | .ask q => let p := o.win.ask q; (p.1, { o with win := p.2 })
  | .click => (.value 0, { o with win := o.win.click })
  | .uncheck => (.value 0, { o with win := { o.win with checkState := 0 } })
  | .setProp k v room =>
    if (o.prop k).isSome || room then (.value 1, o.setProp k v) else (.value 0, o)
  | .getProp k => (.value ((o.prop k).getD 0), o)
  | .removeProp k => (.value ((o.prop k).getD 0), { o with prop := Function.update o.prop k none })
  | .setMenu v => (.value 1, { o with menu := v })
  | .getMenu => (.value o.menu, o)
  | .getSystemMenu true _ => (.value 0, { o with sysmenu := 0 })
  | .getSystemMenu false new =>
    if o.sysmenu = 0 then (.value new, { o with sysmenu := new }) else (.value o.sysmenu, o)

end Own

end Aret.Wnd
