/-
The exceptions of the GNU C++ runtime: the stack of frames that the lifted code
keeps, and the calls that throw, catch, end a handler and resume an unwinding.

A call that transfers control does not return: it ends where the landing pad
starts, and what the program does from there on is the next event.  The call of
a destructor by `__cxa_end_catch` ends the event too, and its return is another.
-/
import Mathlib

namespace Aret.Eh

/-! ### Types -/

mutual

/-- A `std::type_info` with its bases, by the kind that its vtable pointer tells. -/
inductive TypeInfo
  | cls (addr : ℕ) (name : Option String)
  | si (addr : ℕ) (name : Option String) (base : TypeInfo)
  | vmi (addr : ℕ) (name : Option String) (bases : Bases)
  | unknown (addr : ℕ) (name : Option String)
  deriving DecidableEq

/-- The `base_info` array of a `__vmi_class_type_info`; `offflags` is a signed word. -/
inductive Bases
  | nil
  | cons (base : TypeInfo) (offflags : ℤ) (rest : Bases)
  deriving DecidableEq

end

namespace TypeInfo

def addr : TypeInfo → ℕ
  | cls a _ | si a _ _ | vmi a _ _ | unknown a _ => a

def name : TypeInfo → Option String
  | cls _ n | si _ n _ | vmi _ n _ | unknown _ n => n

/-- `aret_gnu_ti_equal`: one object, or two with the same name. -/
def equal (a b : TypeInfo) : Bool :=
  a.addr == b.addr || (a.name.isSome && a.name == b.name)

end TypeInfo

/-- What a test of a type ends with; `stop` where the process ends in it. -/
inductive Match
  | no
  | yes (adjust : ℤ)
  | stop
  deriving DecidableEq

mutual

/-- `aret_gnu_type_match_adj` for a catch of a type. -/
def matchType (c : TypeInfo) : TypeInfo → Match
  | .cls a n => if (TypeInfo.cls a n).equal c then .yes 0 else .no
  | .si a n base => if (TypeInfo.si a n base).equal c then .yes 0 else matchType c base
  | .vmi a n bases => if (TypeInfo.vmi a n bases).equal c then .yes 0 else matchBases c 64 bases
  | .unknown a n => if (TypeInfo.unknown a n).equal c then .yes 0 else .stop

/-- Its loop over the bases: virtual bases and those that are not public are passed over. -/
def matchBases (c : TypeInfo) : ℕ → Bases → Match
  | 0, _ => .no
  | _ + 1, .nil => .no
  | k + 1, .cons base offflags rest =>
    if offflags % 2 = 1 ∨ offflags / 2 % 2 = 0 then matchBases c k rest
    else
      match matchType c base with
      | .yes sub => .yes (offflags / 2 ^ 8 + sub)
      | .no => matchBases c k rest
      | .stop => .stop

end

/-- `aret_gnu_type_match_adj`: a null type of a catch is a catch-all, and a null type of the object
is dereferenced. -/
def typeMatchAdj (thrown : Option TypeInfo) : Option TypeInfo → Match
  | none => .yes 0
  | some c =>
    match thrown with
    | some t => matchType c t
    | none => .stop

/-! ### Call sites -/

/-- A catch of a call site; only positive filters become catches. -/
structure Catch where
  filter : ℤ
  pos : 0 < filter
  type : Option TypeInfo
  deriving DecidableEq

/-- A row of `aret_gnu_eh_sites` with its slice of the catches. -/
structure Site where
  start : ℕ
  stop : ℕ
  lp : ℕ
  catches : List Catch
  deriving DecidableEq

abbrev Table := List Site

/-- `aret_gnu_eh_site`. -/
def Table.site (tab : Table) (pc : ℕ) : Option Site :=
  tab.find? fun r => r.start ≤ pc ∧ pc < r.stop

/-! ### The globals of the runtime -/

/-- An `aret_gnu_frame`. -/
structure Frame where
  key : ℕ
  pc : ℕ
  ebp : ℕ
  esp : ℕ
  pcStart : ℕ
  deriving DecidableEq

/-- An exception: the object, its type and its destructor, as `__cxa_throw` was given them. -/
structure Exc where
  obj : ℕ
  tinfo : Option TypeInfo
  dtor : ℕ
  deriving DecidableEq

/-- `frames` is `g_gnu_eh` up to `g_gnu_eh_n`, the innermost frame first; `exc` is `g_gnu_exc_obj`,
`g_gnu_exc_tinfo` and `g_gnu_cur_dtor`. -/
structure Rt where
  frames : List Frame
  exc : Exc
  caughtBase : ℕ
  caughtDtor : ℕ
  rethrown : Bool
  deriving DecidableEq

def Rt.start : Rt where
  frames := []
  exc := ⟨0, none, 0⟩
  caughtBase := 0
  caughtDtor := 0
  rethrown := false

/-- The landing pad that runs after a transfer: with the frame's registers, the object in `eax` and
the selector in `edx`. -/
structure Landing where
  key : ℕ
  lp : ℕ
  base : ℕ
  ebp : ℕ
  obj : ℕ
  sel : ℤ
  deriving DecidableEq

inductive Obs
  | quiet
  | landed (l : Landing)
  /-- No frame has a landing pad: the process ends. -/
  | unhandled
  /-- The process ends in the runtime. -/
  | stopped
  /-- A destructor is called on an object. -/
  | destroys (base dtor : ℕ)
  | frees (base : ℕ)
  deriving DecidableEq

/-- The calls of the lifted code, and the return of the destructor that `__cxa_end_catch` calls. -/
inductive Event
  | push (key pcStart : ℕ)
  | setpc (pc sp bp : ℕ)
  | pop
  | throw (obj : ℕ) (tinfo : Option TypeInfo) (dtor : ℕ)
  | rethrow
  | resume
  | beginCatch
  | endCatch
  | destroyed
  deriving DecidableEq

/-! ### Dispatch -/

def Table.landing (tab : Table) (f : Frame) : Option Site :=
  if f.pc = 0 then none else (tab.site f.pc).filter fun r => r.lp ≠ 0

/-- The search of the catches of a site: the selector and the adjustment of the first that matches,
or none. -/
def selectCatch (tinfo : Option TypeInfo) : List Catch → Option (Option (ℤ × ℤ))
  | [] => some none
  | c :: cs =>
    match typeMatchAdj tinfo c.type with
    | .yes adjust => some (some (c.filter, adjust))
    | .no => selectCatch tinfo cs
    | .stop => none

/-- The landing pad of a frame, run by `aret_gnu_eh_run` for an exception; without a matching catch
the selector is 0. -/
def Frame.land (f : Frame) (r : Site) (e : Exc) (c : Option (ℤ × ℤ)) : Landing where
  key := f.key
  lp := r.lp
  base := if f.esp = 0 then f.ebp else f.esp
  ebp := f.ebp
  obj :=
    match c with
    | some (_, adjust) => ((e.obj + adjust) % 2 ^ 32).toNat
    | none => e.obj % 2 ^ 32
  sel :=
    match c with
    | some (filter, _) => filter
    | none => 0

def Frame.setpc (f : Frame) (pc sp bp : ℕ) : Frame :=
  { f with pc := pc, ebp := bp, esp := if f.esp < sp then sp else f.esp }

/-- The loop of `aret_gnu_dispatch`: the frames that stay, and what it ends with. -/
def dispatchFrom (tab : Table) (e : Exc) : List Frame → List Frame × Obs
  | [] => ([], .unhandled)
  | f :: fs =>
    match tab.landing f with
    | none => dispatchFrom tab e fs
    | some r =>
      match selectCatch e.tinfo r.catches with
      | none => ([], .stopped)
      | some c => (f :: fs, .landed (f.land r e c))

namespace Rt

variable (tab : Table) (s : Rt)

/-- `aret_gnu_dispatch`, which drops the frames inside the one that it transfers to. -/
def dispatch : Rt × Obs :=
  match dispatchFrom tab s.exc s.frames with
  | (fs, .landed l) => ({ s with frames := fs }, .landed l)
  | (_, o) => (s, o)

/-! ### The calls -/

def maxFrames : ℕ := 256

/-- `aret_gnu_eh_push`. -/
def push (key pcStart : ℕ) : Rt × Obs :=
  if maxFrames ≤ s.frames.length then (s, .stopped)
  else ({ s with frames := ⟨key, 0, 0, 0, pcStart⟩ :: s.frames }, .quiet)

/-- `aret_gnu_eh_setpc`. -/
def setpc (pc sp bp : ℕ) : Rt :=
  match s.frames with
  | [] => s
  | f :: fs => { s with frames := f.setpc pc sp bp :: fs }

/-- `aret_gnu_eh_pop`. -/
def pop : Rt := { s with frames := s.frames.tail }

/-- `aret_cxa_throw`. -/
def throw (obj : ℕ) (tinfo : Option TypeInfo) (dtor : ℕ) : Rt × Obs :=
  { s with exc := ⟨obj, tinfo, dtor⟩ }.dispatch tab

/-- `aret_cxa_rethrow`. -/
def rethrow : Rt × Obs := { s with rethrown := true }.dispatch tab

/-- `aret_Unwind_Resume`. -/
def resume : Rt × Obs := s.pop.dispatch tab

/-- `aret_cxa_begin_catch`, which returns its argument. -/
def beginCatch : Rt := { s with caughtBase := s.exc.obj, caughtDtor := s.exc.dtor }

/-- The end of `aret_cxa_end_catch`: it frees the object that the slot holds now. -/
def freeCaught : Rt × Obs :=
  ({ s with caughtBase := 0, caughtDtor := 0 }, .frees s.caughtBase)

/-- `aret_cxa_end_catch`, up to the call of the destructor if there is one. -/
def endCatch : Rt × Obs :=
  if s.rethrown then ({ s with rethrown := false }, .quiet)
  else if s.caughtBase = 0 then (s, .quiet)
  else if s.caughtDtor = 0 then s.freeCaught
  else (s, .destroys s.caughtBase s.caughtDtor)

def step : Event → Rt × Obs
  | .push key pcStart => s.push key pcStart
  | .setpc pc sp bp => (s.setpc pc sp bp, .quiet)
  | .pop => (s.pop, .quiet)
  | .throw obj tinfo dtor => s.throw tab obj tinfo dtor
  | .rethrow => s.rethrow tab
  | .resume => s.resume tab
  | .beginCatch => (s.beginCatch, .quiet)
  | .endCatch => s.endCatch
  | .destroyed => s.freeCaught

end Rt

end Aret.Eh
