/-
Nested exceptions of the GNU C++ runtime.

Compiled code opens and closes frames, landing pads, handlers and destructors
like brackets.  `Nested` is the meaning that the C++ ABI gives to such code: it
keeps all that is open in one list, so that any number of exceptions can be
caught or in flight, while the runtime has one slot for each.

* `gnuEh_exact` — the runtime shows what it has to in every simple run, and
  every object is freed and destroyed once; `not_gnuEh_exact` — a rethrow after
  a nested handler raises the wrong exception.
-/
import Aret.CatchRule
import Mathlib.Data.List.Count
import Mathlib.Tactic.Common

namespace Aret.Eh

/-! ### The meaning of well-nested code -/

/-- What is open at a point of the execution: the frame of an establisher, a landing pad that
runs for an exception, a handler of one, or the destructor of its object. -/
inductive Item
  | frame (f : Frame)
  | pad (e : Exc)
  | handler (e : Exc)
  | dtor (e : Exc)
  deriving DecidableEq

def live (items : List Item) : List Frame :=
  items.filterMap fun | .frame f => some f | _ => none

def pads (items : List Item) : List Exc :=
  items.filterMap fun | .pad e => some e | _ => none

def handlers (items : List Item) : List Exc :=
  items.filterMap fun | .handler e => some e | _ => none

def dtors (items : List Item) : List Exc :=
  items.filterMap fun | .dtor e => some e | _ => none

def Held (items : List Item) (b : ℕ) : Prop :=
  ∃ e, (e ∈ pads items ∨ e ∈ handlers items ∨ e ∈ dtors items) ∧ e.obj = b

/-- The first catch of a site that takes a type, by the rule of C++, with the offset; or none. -/
inductive Selects (t : Option TypeInfo) : List Catch → Option (ℤ × ℤ) → Prop
  | first {before c after adjust} (hb : ∀ b ∈ before, Rule t b.type none)
      (hc : Rule t c.type (some adjust)) :
      Selects t (before ++ c :: after) (some (c.filter, adjust))
  | nothing {cs} (h : ∀ c ∈ cs, Rule t c.type none) : Selects t cs none

/-- An exception is raised: control goes to the innermost frame whose active call site has a
landing pad. Frames inside it have no open handlers, because a call in a handler has a landing pad;
the frame's own handlers stay open for the pad to end; and no exception leaves a landing pad or a
destructor. -/
inductive Raises (tab : Table) (e : Exc) : List Item → Obs → Option (List Item) → Prop
  | landed (inner : List Frame) (own : List Exc) {f rest r c}
      (hin : ∀ g ∈ inner, tab.landing g = none) (hf : tab.landing f = some r)
      (hc : Selects e.tinfo r.catches c) :
      Raises tab e (inner.map .frame ++ (own.map .handler ++ .frame f :: rest))
        (.landed (f.land r e c)) (some (.pad e :: (own.map .handler ++ .frame f :: rest)))
  | unhandled {items} (h : ∀ f ∈ live items, tab.landing f = none) :
      Raises tab e items .unhandled none

def lastEnd (e : Exc) : Obs := if e.dtor = 0 then .frees e.obj else .destroys e.obj e.dtor

/-- An event of well-nested code: what is open before it, what it has to show, and what is open
after it, `none` where the process ends. -/
inductive Nested (tab : Table) : List Item → Event → Obs → Option (List Item) → Prop
  | push {items} (key pcStart : ℕ) :
      Nested tab items (.push key pcStart) .quiet
        (some (.frame ⟨key, 0, 0, 0, pcStart⟩ :: items))
  | setpc {own f rest} (pc sp bp : ℕ)
      (hown : ∀ x ∈ own, ∃ e, x = Item.pad e ∨ x = Item.handler e) :
      Nested tab (own ++ .frame f :: rest) (.setpc pc sp bp) .quiet
        (some (own ++ .frame (f.setpc pc sp bp) :: rest))
  | pop {f rest} : Nested tab (.frame f :: rest) .pop .quiet (some rest)
  | throw {items obs r} (e : Exc) (hnew : ¬ Held items e.obj) (h0 : e.obj ≠ 0)
      (h : Raises tab e items obs r) : Nested tab items (.throw e.obj e.tinfo e.dtor) obs r
  | rethrow {items e obs r} (he : (handlers items).head? = some e)
      (h : Raises tab e items obs r) : Nested tab items .rethrow obs r
  | resume {e f rest obs r} (h : Raises tab e rest obs r) :
      Nested tab (.pad e :: .frame f :: rest) .resume obs r
  | beginCatch {e rest} :
      Nested tab (.pad e :: rest) .beginCatch .quiet (some (.handler e :: rest))
  /-- The handler ends, but its exception is in flight again or another handler has it. -/
  | endOne (above : List Exc) {e rest}
      (h : e ∈ pads (above.map .pad ++ rest) ∨ e ∈ handlers (above.map .pad ++ rest)) :
      Nested tab (above.map .pad ++ .handler e :: rest) .endCatch .quiet
        (some (above.map .pad ++ rest))
  /-- The last handler of its exception ends. -/
  | endLast (above : List Exc) {e rest} (hp : e ∉ pads (above.map .pad ++ rest))
      (hh : e ∉ handlers (above.map .pad ++ rest)) :
      Nested tab (above.map .pad ++ .handler e :: rest) .endCatch (lastEnd e)
        (some (if e.dtor = 0 then above.map .pad ++ rest
          else .dtor e :: (above.map .pad ++ rest)))
  | destroyed {e rest} :
      Nested tab (.dtor e :: rest) .destroyed (.frees e.obj) (some rest)

/-- The test of the runtime is decided for a thrown type and each class that the program catches. -/
def Judged (tab : Table) (t : Option TypeInfo) : Prop :=
  ∀ r ∈ tab, ∀ k ∈ r.catches, ∀ c, k.type = some c → ∃ u, t = some u ∧ u.Decided c

/-- The condition under which the slots of the runtime suffice: nothing is raised while an exception
is in flight; what is raised is of a type that the test is decided for; it is raised again only where
it has one handler; it is caught only while no other one is caught or being destroyed; and there are
fewer than 256 frames. -/
def Simple (tab : Table) (items : List Item) : Event → Prop
  | .push _ _ => (live items).length < Rt.maxFrames
  | .throw _ t _ => pads items = [] ∧ Judged tab t
  | .rethrow =>
    pads items = [] ∧ (handlers items).length = 1 ∧ ∀ e ∈ handlers items, Judged tab e.tinfo
  | .resume => ∀ e ∈ pads items, Judged tab e.tinfo
  | .beginCatch => (∀ e ∈ pads items, ∀ e' ∈ handlers items, e' = e) ∧ dtors items = []
  | _ => True

/-- The runs of the runtime under well-nested code whose events all meet a condition, with each event
and what it showed, the newest first. -/
inductive EhRun (tab : Table) (ok : List Item → Event → Prop) :
    List (Event × Obs) → List Item → Rt → Prop
  | start : EhRun tab ok [] [] .start
  | step {t items s ev obs items'} (h : EhRun tab ok t items s) (hok : ok items ev)
      (hn : Nested tab items ev obs (some items')) :
      EhRun tab ok ((ev, (s.step tab ev).2) :: t) items' (s.step tab ev).1

/-! ### The open items of a list -/

section
variable (f : Frame) (e : Exc) (l l' : List Item)

@[simp] theorem live_nil : live [] = [] := rfl
@[simp] theorem live_frame : live (.frame f :: l) = f :: live l := rfl
@[simp] theorem live_pad : live (.pad e :: l) = live l := rfl
@[simp] theorem live_handler : live (.handler e :: l) = live l := rfl
@[simp] theorem live_dtor : live (.dtor e :: l) = live l := rfl
@[simp] theorem live_append : live (l ++ l') = live l ++ live l' := List.filterMap_append
@[simp] theorem pads_nil : pads [] = [] := rfl
@[simp] theorem pads_frame : pads (.frame f :: l) = pads l := rfl
@[simp] theorem pads_pad : pads (.pad e :: l) = e :: pads l := rfl
@[simp] theorem pads_handler : pads (.handler e :: l) = pads l := rfl
@[simp] theorem pads_dtor : pads (.dtor e :: l) = pads l := rfl
@[simp] theorem pads_append : pads (l ++ l') = pads l ++ pads l' := List.filterMap_append
@[simp] theorem handlers_nil : handlers [] = [] := rfl
@[simp] theorem handlers_frame : handlers (.frame f :: l) = handlers l := rfl
@[simp] theorem handlers_pad : handlers (.pad e :: l) = handlers l := rfl
@[simp] theorem handlers_handler : handlers (.handler e :: l) = e :: handlers l := rfl
@[simp] theorem handlers_dtor : handlers (.dtor e :: l) = handlers l := rfl
@[simp] theorem handlers_append : handlers (l ++ l') = handlers l ++ handlers l' :=
  List.filterMap_append
@[simp] theorem dtors_nil : dtors [] = [] := rfl
@[simp] theorem dtors_frame : dtors (.frame f :: l) = dtors l := rfl
@[simp] theorem dtors_pad : dtors (.pad e :: l) = dtors l := rfl
@[simp] theorem dtors_handler : dtors (.handler e :: l) = dtors l := rfl
@[simp] theorem dtors_dtor : dtors (.dtor e :: l) = e :: dtors l := rfl
@[simp] theorem dtors_append : dtors (l ++ l') = dtors l ++ dtors l' := List.filterMap_append

end

section
variable (fs : List Frame) (es : List Exc)

@[simp] theorem live_map_frame : live (fs.map .frame) = fs := by
  induction fs with
  | nil => rfl
  | cons f fs ih => rw [List.map_cons, live_frame, ih]

@[simp] theorem live_map_handler : live (es.map .handler) = [] := by
  induction es with
  | nil => rfl
  | cons e es ih => rw [List.map_cons, live_handler, ih]

@[simp] theorem live_map_pad : live (es.map .pad) = [] := by
  induction es with
  | nil => rfl
  | cons e es ih => rw [List.map_cons, live_pad, ih]

@[simp] theorem pads_map_frame : pads (fs.map .frame) = [] := by
  induction fs with
  | nil => rfl
  | cons f fs ih => rw [List.map_cons, pads_frame, ih]

@[simp] theorem pads_map_handler : pads (es.map .handler) = [] := by
  induction es with
  | nil => rfl
  | cons e es ih => rw [List.map_cons, pads_handler, ih]

@[simp] theorem pads_map_pad : pads (es.map .pad) = es := by
  induction es with
  | nil => rfl
  | cons e es ih => rw [List.map_cons, pads_pad, ih]

@[simp] theorem handlers_map_frame : handlers (fs.map .frame) = [] := by
  induction fs with
  | nil => rfl
  | cons f fs ih => rw [List.map_cons, handlers_frame, ih]

@[simp] theorem handlers_map_pad : handlers (es.map .pad) = [] := by
  induction es with
  | nil => rfl
  | cons e es ih => rw [List.map_cons, handlers_pad, ih]

@[simp] theorem dtors_map_frame : dtors (fs.map .frame) = [] := by
  induction fs with
  | nil => rfl
  | cons f fs ih => rw [List.map_cons, dtors_frame, ih]

@[simp] theorem dtors_map_pad : dtors (es.map .pad) = [] := by
  induction es with
  | nil => rfl
  | cons e es ih => rw [List.map_cons, dtors_pad, ih]

end

theorem live_own {own : List Item} (h : ∀ x ∈ own, ∃ e, x = .pad e ∨ x = .handler e) :
    live own = [] := by
  refine List.filterMap_eq_nil_iff.mpr fun x hx => ?_
  obtain ⟨e, rfl | rfl⟩ := h x hx <;> rfl

/-! ### The dispatch -/

section
variable {tab : Table} {e : Exc}

theorem typeMatchAdj_of_rule {t c : Option TypeInfo} {r : Option ℤ}
    (hj : ∀ d, c = some d → ∃ u, t = some u ∧ u.Decided d) (h : Rule t c r) :
    typeMatchAdj t c = r.elim .no .yes := by
  cases c with
  | none =>
      cases h
      rfl
  | some c =>
      obtain ⟨u, rfl, hd⟩ := hj c rfl
      exact matchType_of_rule hd h

theorem selectCatch_skip {t : Option TypeInfo} {before cs : List Catch}
    (h : ∀ b ∈ before, typeMatchAdj t b.type = .no) :
    selectCatch t (before ++ cs) = selectCatch t cs := by
  induction before with
  | nil => rfl
  | cons b before ih =>
      rw [List.cons_append, selectCatch, h b List.mem_cons_self]
      exact ih fun c hc => h c (List.mem_cons_of_mem b hc)

theorem selectCatch_eq {t : Option TypeInfo} {cs : List Catch} {r : Option (ℤ × ℤ)}
    (hj : ∀ k ∈ cs, ∀ c, k.type = some c → ∃ u, t = some u ∧ u.Decided c) (h : Selects t cs r) :
    selectCatch t cs = some r := by
  cases h with
  | @first before c after adjust hb hc =>
      have hno : ∀ b ∈ before, typeMatchAdj t b.type = .no := fun b hmem =>
        typeMatchAdj_of_rule (hj b (List.mem_append_left _ hmem)) (hb b hmem)
      have hyes : typeMatchAdj t c.type = .yes adjust :=
        typeMatchAdj_of_rule (hj c (List.mem_append_right _ List.mem_cons_self)) hc
      rw [selectCatch_skip hno, selectCatch, hyes]
  | nothing h =>
      rw [← List.append_nil cs,
        selectCatch_skip fun b hmem => typeMatchAdj_of_rule (hj b hmem) (h b hmem)]
      rfl

theorem mem_of_landing {f : Frame} {r : Site} (h : tab.landing f = some r) : r ∈ tab := by
  unfold Table.landing at h
  split_ifs at h
  exact List.mem_of_find?_eq_some (Option.filter_eq_some_iff.mp h).1

theorem dispatchFrom_skip {inner fs : List Frame} (h : ∀ g ∈ inner, tab.landing g = none) :
    dispatchFrom tab e (inner ++ fs) = dispatchFrom tab e fs := by
  induction inner with
  | nil => rfl
  | cons g inner ih =>
      rw [List.cons_append, dispatchFrom, h g List.mem_cons_self]
      exact ih fun f hf => h f (List.mem_cons_of_mem g hf)

theorem dispatchFrom_landed {inner outer : List Frame} {f : Frame} {r : Site}
    {c : Option (ℤ × ℤ)} (hj : Judged tab e.tinfo) (hin : ∀ g ∈ inner, tab.landing g = none)
    (hf : tab.landing f = some r) (hc : Selects e.tinfo r.catches c) :
    dispatchFrom tab e (inner ++ f :: outer) = (f :: outer, .landed (f.land r e c)) := by
  rw [dispatchFrom_skip hin, dispatchFrom, hf]
  dsimp only
  rw [selectCatch_eq (hj r (mem_of_landing hf)) hc]

theorem dispatchFrom_unhandled {fs : List Frame} (h : ∀ f ∈ fs, tab.landing f = none) :
    dispatchFrom tab e fs = ([], .unhandled) := by
  rw [← List.append_nil fs, dispatchFrom_skip h]
  rfl

theorem dispatch_raises {s : Rt} {items : List Item} {obs : Obs} {r : Option (List Item)}
    (hj : Judged tab e.tinfo) (h : Raises tab e items obs r) (hs : s.frames = live items)
    (he : s.exc = e) :
    (s.dispatch tab).2 = obs ∧
      ∀ items', r = some items' → (s.dispatch tab).1 = { s with frames := live items' } := by
  unfold Rt.dispatch
  rw [hs, he]
  cases h with
  | landed inner own hin hf hc =>
      simp only [live_append, live_map_frame, live_map_handler, live_frame, List.nil_append]
      rw [dispatchFrom_landed hj hin hf hc]
      refine ⟨rfl, ?_⟩
      rintro _ ⟨⟩
      simp only [live_pad, live_append, live_map_handler, live_frame, List.nil_append]
  | unhandled h =>
      rw [dispatchFrom_unhandled h]
      exact ⟨rfl, nofun⟩

end

/-! ### The slots and the open items -/

/-- How often the exception with the handlers `hs` can be handed on before the flag is wrong: one end
of a handler is skipped, and a flight counts as one handler more. -/
def limit (ps hs : List Exc) : ℕ := if ∃ e ∈ ps, e ∈ hs then 1 else 2

/-- The slots stand for the exceptions in flight `ps`, the handlers `hs` and the destructors `ds`:
at most one exception is in flight, one is caught, and the flag says that the next end of a handler
is not the last of its exception. -/
structure Slots (fs : List Frame) (ps hs ds : List Exc) (s : Rt) : Prop where
  frames : s.frames = fs
  flight : ps.length ≤ 1
  one : ∀ e ∈ hs, ∀ e' ∈ hs, e' = e
  busy : ds ≠ [] → hs = []
  last : ds.length ≤ 1
  exc : ∀ e ∈ ps, s.exc = e
  again : ps = [] → ∀ e ∈ hs, s.exc = e
  caught : ∀ e ∈ hs, s.caughtBase = e.obj ∧ s.caughtDtor = e.dtor
  dying : ∀ e ∈ ds, s.caughtBase = e.obj
  gone : ∀ e ∈ ds, e ∉ ps
  count : hs.length ≤ limit ps hs
  flag : s.rethrown = true ↔ hs.length = limit ps hs
  nonzero : ∀ e, e ∈ ps ∨ e ∈ hs → e.obj ≠ 0
  distinct : ∀ e e', (e ∈ ps ∨ e ∈ hs ∨ e ∈ ds) → (e' ∈ ps ∨ e' ∈ hs ∨ e' ∈ ds) →
    e.obj = e'.obj → e = e'

abbrev Inv (items : List Item) (s : Rt) : Prop :=
  Slots (live items) (pads items) (handlers items) (dtors items) s

namespace Slots

variable {fs fs' : List Frame} {ps hs ds : List Exc} {e : Exc} {s : Rt}

theorem start : Slots [] [] [] [] .start where
  frames := rfl
  flight := Nat.zero_le _
  one := nofun
  busy := fun h => absurd rfl h
  last := Nat.zero_le _
  exc := nofun
  again := fun _ => nofun
  caught := nofun
  dying := nofun
  gone := nofun
  count := Nat.zero_le _
  flag := ⟨nofun, nofun⟩
  nonzero := fun _ h => by rcases h with h | h <;> cases h
  distinct := fun _ _ h => by rcases h with h | h | h <;> cases h

theorem reframe (h : Slots fs ps hs ds s) : Slots fs' ps hs ds { s with frames := fs' } :=
  { h with frames := rfl }

theorem limit_nil_left (hs : List Exc) : limit [] hs = 2 := if_neg (by rintro ⟨e, he, -⟩; cases he)

theorem limit_nil_right (ps : List Exc) : limit ps [] = 2 := if_neg (by rintro ⟨e, -, he⟩; cases he)

theorem throw (h : Slots fs [] hs ds s) (h0 : e.obj ≠ 0)
    (hnew : ∀ e', e' ∈ hs ∨ e' ∈ ds → e'.obj ≠ e.obj) :
    Slots fs [e] hs ds { s with exc := e } := by
  have hlimit : limit [e] hs = limit [] hs := by
    rw [limit_nil_left]
    refine if_neg ?_
    rintro ⟨e', he', hh⟩
    rw [List.mem_singleton.mp he'] at hh
    exact hnew e (.inl hh) rfl
  refine { h with flight := le_rfl, exc := ?_, again := nofun, gone := ?_, count := ?_, flag := ?_,
                  nonzero := ?_, distinct := ?_ }
  · intro e' he'
    exact (List.mem_singleton.mp he').symm
  · intro e' he' hp
    exact hnew e' (.inr he') (congrArg Exc.obj (List.mem_singleton.mp hp))
  · rw [hlimit]
    exact h.count
  · rw [hlimit]
    exact h.flag
  · rintro e' (he' | he')
    · rw [List.mem_singleton.mp he']
      exact h0
    · exact h.nonzero e' (.inr he')
  · intro e₁ e₂ h₁ h₂ hobj
    rcases h₁ with h₁ | h₁ <;> rcases h₂ with h₂ | h₂
    · rw [List.mem_singleton.mp h₁, List.mem_singleton.mp h₂]
    · rw [List.mem_singleton.mp h₁] at hobj
      exact absurd hobj.symm (hnew e₂ h₂)
    · rw [List.mem_singleton.mp h₂] at hobj
      exact absurd hobj (hnew e₁ h₁)
    · exact h.distinct e₁ e₂ (.inr h₁) (.inr h₂) hobj

theorem rethrow (h : Slots fs [] [e] ds s) : Slots fs [e] [e] ds { s with rethrown := true } := by
  have he : e ∈ [e] := List.mem_singleton_self e
  have hlimit : limit [e] [e] = 1 := if_pos ⟨e, he, he⟩
  obtain rfl : ds = [] := by
    by_contra hd
    cases h.busy hd
  refine { h with flight := le_rfl, exc := h.again rfl, again := nofun, gone := nofun, count := ?_,
                  flag := ?_, nonzero := ?_, distinct := ?_ }
  · rw [hlimit]
    exact le_rfl
  · rw [hlimit]
    exact ⟨fun _ => rfl, fun _ => rfl⟩
  · rintro e' (he' | he') <;> exact h.nonzero e' (.inr he')
  · intro e₁ e₂ h₁ h₂ hobj
    refine h.distinct e₁ e₂ (.inr ?_) (.inr ?_) hobj
    · exact h₁.elim .inl id
    · exact h₂.elim .inl id

theorem pop {f : Frame} (h : Slots (f :: fs) ps hs ds s) : Slots fs ps hs ds s.pop := by
  refine { h with frames := ?_ }
  show s.frames.tail = fs
  rw [h.frames]
  rfl

theorem beginCatch (h : Slots fs (e :: ps) hs [] s) (hsame : ∀ e' ∈ hs, e' = e) :
    Slots fs ps (e :: hs) [] s.beginCatch := by
  have he : e ∈ e :: ps := List.mem_cons_self
  have hexc := h.exc e he
  obtain rfl : ps = [] := by
    have := h.flight
    rw [List.length_cons] at this
    exact List.eq_nil_of_length_eq_zero (by omega)
  have hall : ∀ e' ∈ e :: hs, e' = e := by
    intro e' he'
    rcases List.mem_cons.mp he' with rfl | he'
    · rfl
    · exact hsame e' he'
  have hcount := h.count
  have hflag := h.flag
  -- the flight counts as one handler more, so that the flag is the same before and after
  have hnow : hs.length ≤ 1 ∧ (s.rethrown = true ↔ hs.length = 1) := by
    cases hs with
    | nil =>
        rw [limit_nil_right] at hflag
        exact ⟨Nat.zero_le _, hflag.trans ⟨nofun, nofun⟩⟩
    | cons e' hs =>
        have hmem : e ∈ e' :: hs := by
          rw [hsame e' List.mem_cons_self]
          exact List.mem_cons_self
        rw [show limit [e] (e' :: hs) = 1 from if_pos ⟨e, he, hmem⟩] at hcount hflag
        exact ⟨hcount, hflag⟩
  refine { frames := h.frames, flight := Nat.zero_le _, one := ?_, busy := fun hd => absurd rfl hd,
           last := h.last, exc := nofun, again := ?_, caught := ?_, dying := nofun, gone := nofun,
           count := ?_, flag := ?_, nonzero := ?_, distinct := ?_ }
  · intro e₁ h₁ e₂ h₂
    rw [hall e₁ h₁, hall e₂ h₂]
  · intro _ e' he'
    rw [hall e' he']
    exact hexc
  · intro e' he'
    rw [hall e' he', ← hexc]
    exact ⟨rfl, rfl⟩
  · rw [limit_nil_left, List.length_cons]
    omega
  · rw [limit_nil_left, List.length_cons]
    exact hnow.2.trans (by omega)
  · rintro e' (he' | he')
    · cases he'
    · rw [hall e' he']
      exact h.nonzero e (.inl he)
  · intro e₁ e₂ h₁ h₂ _
    rcases h₁ with h₁ | h₁ | h₁
    · cases h₁
    · rcases h₂ with h₂ | h₂ | h₂
      · cases h₂
      · rw [hall e₁ h₁, hall e₂ h₂]
      · cases h₂
    · cases h₁

theorem endOne (h : Slots fs ps (e :: hs) ds s) (hkeep : e ∈ ps ∨ e ∈ hs) :
    s.endCatch.2 = .quiet ∧ Slots fs ps hs ds s.endCatch.1 := by
  have he : e ∈ e :: hs := List.mem_cons_self
  have hall : ∀ e' ∈ hs, e' = e := fun e' he' => h.one e he e' (List.mem_cons_of_mem e he')
  have hcount := h.count
  have hflag := h.flag
  rw [List.length_cons] at hcount hflag
  have hnow : s.rethrown = true ∧ hs.length < limit ps hs := by
    rcases hkeep with hp | hh
    · rw [show limit ps (e :: hs) = 1 from if_pos ⟨e, hp, he⟩] at hcount hflag
      obtain rfl : hs = [] := List.eq_nil_of_length_eq_zero (by omega)
      rw [limit_nil_right]
      exact ⟨hflag.mpr rfl, Nat.zero_lt_two⟩
    · have hpos := List.length_pos_of_mem hh
      by_cases hp : e ∈ ps
      · rw [show limit ps (e :: hs) = 1 from if_pos ⟨e, hp, he⟩] at hcount
        omega
      · have hnone : ∀ l : List Exc, (∀ e' ∈ l, e' = e) → limit ps l = 2 := by
          intro l hl
          refine if_neg ?_
          rintro ⟨e', hp', hh'⟩
          rw [hl e' hh'] at hp'
          exact hp hp'
        rw [hnone _ fun e' he' => h.one e he e' he'] at hcount hflag
        rw [hnone hs hall]
        exact ⟨hflag.mpr (by omega), by omega⟩
  have hend : s.endCatch = ({ s with rethrown := false }, .quiet) := by
    unfold Rt.endCatch
    rw [if_pos hnow.1]
  rw [hend]
  refine ⟨rfl, { h with one := ?_, busy := ?_, again := ?_, caught := ?_, count := le_of_lt hnow.2,
                        flag := ?_, nonzero := ?_, distinct := ?_ }⟩
  · intro e₁ h₁ e₂ h₂
    rw [hall e₁ h₁, hall e₂ h₂]
  · intro hd
    cases h.busy hd
  · exact fun hp e' he' => h.again hp e' (List.mem_cons_of_mem e he')
  · exact fun e' he' => h.caught e' (List.mem_cons_of_mem e he')
  · exact ⟨nofun, fun heq => absurd heq (ne_of_lt hnow.2)⟩
  · exact fun e' he' => h.nonzero e' (he'.imp_right (List.mem_cons_of_mem e))
  · exact fun e₁ e₂ h₁ h₂ =>
      h.distinct e₁ e₂ (h₁.imp_right (.imp_left (List.mem_cons_of_mem e)))
        (h₂.imp_right (.imp_left (List.mem_cons_of_mem e)))

theorem alone (h : Slots fs ps (e :: hs) ds s) (hh : e ∉ hs) : hs = [] ∧ ds = [] := by
  constructor
  · refine List.eq_nil_iff_forall_not_mem.mpr fun e' he' => hh ?_
    rw [← h.one e List.mem_cons_self e' (List.mem_cons_of_mem e he')]
    exact he'
  · by_contra hd
    cases h.busy hd

theorem endLast (h : Slots fs ps (e :: hs) ds s) (hp : e ∉ ps) (hh : e ∉ hs) :
    s.endCatch.2 = lastEnd e ∧
      Slots fs ps hs (if e.dtor = 0 then ds else e :: ds) s.endCatch.1 := by
  have he : e ∈ e :: hs := List.mem_cons_self
  obtain ⟨rfl, rfl⟩ := h.alone hh
  obtain ⟨hbase, hdtor⟩ := h.caught e he
  have hlimit : limit ps [e] = 2 := by
    refine if_neg ?_
    rintro ⟨e', hp', hh'⟩
    rw [List.mem_singleton.mp hh'] at hp'
    exact hp hp'
  have hflag : s.rethrown = false := by
    have hf := h.flag
    rw [hlimit] at hf
    exact Bool.eq_false_iff.mpr fun hr => absurd (hf.mp hr) (Nat.succ_ne_succ_iff.mpr Nat.zero_ne_one)
  have hend : s.endCatch = if e.dtor = 0 then s.freeCaught else (s, .destroys e.obj e.dtor) := by
    unfold Rt.endCatch
    rw [hflag, if_neg Bool.false_ne_true, hbase, if_neg (h.nonzero e (.inr he)), hdtor]
  have hleft : ∀ e', (e' ∈ ps ∨ e' ∈ ([] : List Exc) ∨ e' ∈ ([] : List Exc)) → e' ∈ ps :=
    fun e' h' => h'.elim id fun h' => h'.elim nofun nofun
  have hrest : ∀ s' : Rt, s'.frames = s.frames → s'.exc = s.exc → s'.rethrown = false →
      Slots fs ps [] [] s' := by
    intro s' hf he' hr
    refine { h with frames := hf.trans h.frames, one := nofun, exc := ?_, again := fun _ => nofun,
                    caught := nofun, dying := nofun, gone := nofun, count := Nat.zero_le _,
                    flag := ?_, nonzero := ?_, distinct := ?_, busy := fun hd => absurd rfl hd }
    · rw [he']
      exact h.exc
    · rw [hr, limit_nil_right]
      exact ⟨nofun, nofun⟩
    · rintro e' (he' | he')
      · exact h.nonzero e' (.inl he')
      · cases he'
    · exact fun e₁ e₂ h₁ h₂ => h.distinct e₁ e₂ (.inl (hleft e₁ h₁)) (.inl (hleft e₂ h₂))
  rw [hend]
  unfold lastEnd
  by_cases hd : e.dtor = 0
  · rw [if_pos hd, if_pos hd, if_pos hd]
    refine ⟨?_, hrest _ rfl rfl hflag⟩
    rw [← hbase]
    rfl
  · rw [if_neg hd, if_neg hd, if_neg hd]
    have hk := hrest s rfl rfl hflag
    refine ⟨rfl, { hk with busy := fun _ => rfl, last := le_rfl, dying := ?_, gone := ?_,
                           distinct := ?_ }⟩
    · intro e' he'
      rw [List.mem_singleton.mp he']
      exact hbase
    · intro e' he'
      rw [List.mem_singleton.mp he']
      exact hp
    · have hback : ∀ e', (e' ∈ ps ∨ e' ∈ ([] : List Exc) ∨ e' ∈ [e]) →
          e' ∈ ps ∨ e' ∈ [e] ∨ e' ∈ ([] : List Exc) := fun e' h' => h'.imp_right Or.symm
      exact fun e₁ e₂ h₁ h₂ => h.distinct e₁ e₂ (hback e₁ h₁) (hback e₂ h₂)

theorem destroyed (h : Slots fs ps hs (e :: ds) s) :
    s.freeCaught.2 = .frees e.obj ∧ Slots fs ps hs ds s.freeCaught.1 := by
  obtain rfl : hs = [] := h.busy (List.cons_ne_nil e ds)
  obtain rfl : ds = [] := by
    have := h.last
    rw [List.length_cons] at this
    exact List.eq_nil_of_length_eq_zero (by omega)
  refine ⟨?_, { h with busy := fun _ => rfl, last := Nat.zero_le _, caught := nofun, dying := nofun,
                       gone := nofun, distinct := ?_ }⟩
  · rw [← h.dying e List.mem_cons_self]
    rfl
  · have hback : ∀ e', (e' ∈ ps ∨ e' ∈ ([] : List Exc) ∨ e' ∈ ([] : List Exc)) →
        e' ∈ ps ∨ e' ∈ ([] : List Exc) ∨ e' ∈ [e] :=
      fun e' h' => h'.imp_right (Or.imp_right nofun)
    exact fun e₁ e₂ h₁ h₂ => h.distinct e₁ e₂ (hback e₁ h₁) (hback e₂ h₂)

end Slots

theorem inv_pads {above : List Exc} {items : List Item} {s : Rt} :
    Inv (above.map .pad ++ items) s ↔
      Slots (live items) (above ++ pads items) (handlers items) (dtors items) s := by
  simp only [Inv, live_append, live_map_pad, pads_append, pads_map_pad, handlers_append,
    handlers_map_pad, dtors_append, dtors_map_pad, List.nil_append]

theorem Slots.of_pads {above : List Exc} {e : Exc} {rest : List Item} {s : Rt}
    (h : Inv (above.map .pad ++ .handler e :: rest) s) :
    Slots (live rest) (above ++ pads rest) (e :: handlers rest) (dtors rest) s :=
  inv_pads.mp h

section
variable {tab : Table} {items : List Item} {ev : Event} {obs : Obs} {r : Option (List Item)} {s : Rt}

theorem inv_raises {e : Exc} (h : Slots (live items) [e] (handlers items) (dtors items) s)
    (hp : pads items = []) (hj : Judged tab e.tinfo) (hr : Raises tab e items obs r) :
    (s.dispatch tab).2 = obs ∧ ∀ items', r = some items' → Inv items' (s.dispatch tab).1 := by
  obtain ⟨hobs, hnext⟩ := dispatch_raises hj hr h.frames (h.exc e (List.mem_singleton_self e))
  refine ⟨hobs, fun items' hi => ?_⟩
  rw [hnext items' hi]
  cases hr with
  | landed inner own hin hf hc =>
      cases hi
      simp only [pads_append, pads_map_frame, pads_map_handler, pads_frame, List.nil_append] at hp
      simp only [handlers_append, handlers_map_frame, dtors_append, dtors_map_frame,
        List.nil_append] at h
      simp only [Inv, pads_pad, pads_append, pads_map_handler, pads_frame, handlers_pad, dtors_pad,
        handlers_append, dtors_append, List.nil_append, hp]
      exact h.reframe
  | unhandled hu => cases hi

/-- An event of well-nested code that meets the condition shows what it has to, and keeps the
invariant. -/
theorem step_inv (h : Inv items s) (hok : Simple tab items ev) (hn : Nested tab items ev obs r) :
    (s.step tab ev).2 = obs ∧ ∀ items', r = some items' → Inv items' (s.step tab ev).1 := by
  cases hn with
  | push key pcStart =>
      have hlt : ¬ Rt.maxFrames ≤ s.frames.length := by
        rw [h.frames]
        exact Nat.not_le.mpr hok
      have hstep : s.step tab (.push key pcStart) =
          ({ s with frames := ⟨key, 0, 0, 0, pcStart⟩ :: s.frames }, .quiet) := if_neg hlt
      rw [hstep]
      refine ⟨rfl, ?_⟩
      rintro _ ⟨⟩
      rw [h.frames]
      exact h.reframe
  | @setpc own f rest pc sp bp hown =>
      refine ⟨rfl, ?_⟩
      rintro _ ⟨⟩
      have hframes := h.frames
      rw [live_append, live_own hown, List.nil_append, live_frame] at hframes
      have hstep : (s.step tab (.setpc pc sp bp)).1 =
          { s with frames := f.setpc pc sp bp :: live rest } := by
        show s.setpc pc sp bp = _
        unfold Rt.setpc
        rw [hframes]
      rw [hstep]
      simp only [Inv, live_append, live_own hown, live_frame, pads_append, pads_frame,
        handlers_append, handlers_frame, dtors_append, dtors_frame, List.nil_append] at h ⊢
      exact h.reframe
  | pop =>
      refine ⟨rfl, ?_⟩
      rintro _ ⟨⟩
      exact Slots.pop h
  | throw e hnew h0 hr =>
      obtain ⟨hp, hj⟩ := hok
      have hs : Slots (live items) [] (handlers items) (dtors items) s := hp ▸ h
      refine inv_raises (hs.throw h0 fun e' he' hobj => hnew ⟨e', .inr he', hobj⟩) hp hj hr
  | @rethrow _ e _ _ he hr =>
      obtain ⟨hp, hlen, hj⟩ := hok
      obtain ⟨e', he'⟩ := List.length_eq_one_iff.mp hlen
      rw [he'] at he
      cases he
      rw [he'] at hj
      have hs : Slots (live items) (pads items) (handlers items) (dtors items) s := h
      rw [hp, he'] at hs
      refine inv_raises ?_ hp (hj e (List.mem_singleton_self e)) hr
      rw [he']
      exact hs.rethrow
  | @resume e f rest _ _ hr =>
      have hp : pads rest = [] := by
        have := h.flight
        rw [pads_pad, pads_frame, List.length_cons] at this
        exact List.eq_nil_of_length_eq_zero (by omega)
      have hs : Slots (f :: live rest) [e] (handlers rest) (dtors rest) s := by
        have hh := h
        simp only [Inv, live_pad, live_frame, pads_pad, pads_frame, handlers_pad, handlers_frame,
          dtors_pad, dtors_frame, hp] at hh
        exact hh
      exact inv_raises hs.pop hp (hok e List.mem_cons_self) hr
  | @beginCatch e rest =>
      obtain ⟨hsame, hd⟩ := hok
      refine ⟨rfl, ?_⟩
      rintro _ ⟨⟩
      have hs : Slots (live rest) (e :: pads rest) (handlers rest) [] s := hd ▸ h
      have hk := hs.beginCatch fun e' he' => hsame e List.mem_cons_self e' he'
      show Slots (live rest) (pads rest) (e :: handlers rest) (dtors rest) _
      rw [show dtors rest = [] from hd]
      exact hk
  | @endOne above e rest hkeep =>
      simp only [pads_append, pads_map_pad, handlers_append, handlers_map_pad,
        List.nil_append] at hkeep
      obtain ⟨hobs, hk⟩ := (Slots.of_pads h).endOne hkeep
      refine ⟨hobs, ?_⟩
      rintro _ ⟨⟩
      exact inv_pads.mpr hk
  | @endLast above e rest hp hh =>
      simp only [pads_append, pads_map_pad] at hp
      simp only [handlers_append, handlers_map_pad, List.nil_append] at hh
      obtain ⟨hobs, hk⟩ := (Slots.of_pads h).endLast hp hh
      refine ⟨hobs, ?_⟩
      rintro _ ⟨⟩
      by_cases hd : e.dtor = 0
      · rw [if_pos hd] at hk ⊢
        exact inv_pads.mpr hk
      · -- the destructor runs on top of what stays
        rw [if_neg hd] at hk ⊢
        simp only [Inv, live_dtor, live_append, live_map_pad, pads_dtor, pads_append, pads_map_pad,
          handlers_dtor, handlers_append, handlers_map_pad, dtors_dtor, dtors_append,
          dtors_map_pad, List.nil_append]
        exact hk
  | destroyed =>
      obtain ⟨hobs, hk⟩ := Slots.destroyed h
      refine ⟨hobs, ?_⟩
      rintro _ ⟨⟩
      exact hk

end

theorem run_inv {tab : Table} {t : List (Event × Obs)} {items : List Item} {s : Rt}
    (h : EhRun tab (Simple tab) t items s) : Inv items s := by
  induction h with
  | start => exact Slots.start
  | step _ hok hn ih => exact (step_inv ih hok hn).2 _ rfl

/-! ### Every object is freed and destroyed once -/

def Event.throws (b : ℕ) : Event → Bool
  | .throw o _ _ => o == b
  | _ => false

def Event.throwsClass (b : ℕ) : Event → Bool
  | .throw o _ d => o == b && d != 0
  | _ => false

def Obs.freesObj (b : ℕ) : Obs → Bool
  | .frees o => o == b
  | _ => false

def Obs.destroysObj (b : ℕ) : Obs → Bool
  | .destroys o _ => o == b
  | _ => false

def AliveClass (items : List Item) (b : ℕ) : Prop :=
  ∃ e, (e ∈ pads items ∨ e ∈ handlers items) ∧ e.obj = b ∧ e.dtor ≠ 0

/-- How a step changes whether something is there: an event makes it, or what it shows ends it, or
it stays as it is. -/
def Balanced (there there' up down : Prop) : Prop :=
  (up → ¬ there ∧ there' ∧ ¬ down) ∧ (down → ¬ up ∧ there ∧ ¬ there') ∧
    (¬ up → ¬ down → (there' ↔ there))

section
variable {there there' up down x : Prop}

theorem Balanced.same (hu : ¬ up) (hd : ¬ down) (h : there' ↔ there) :
    Balanced there there' up down :=
  ⟨fun hup => absurd hup hu, fun hdown => absurd hdown hd, fun _ _ => h⟩

theorem Balanced.adds (hup : up ↔ x) (hd : ¬ down) (hx : x → ¬ there) (h : there' ↔ x ∨ there) :
    Balanced there there' up down := by
  refine ⟨fun hu => ⟨hx (hup.mp hu), h.mpr (.inl (hup.mp hu)), hd⟩,
    fun hdown => absurd hdown hd, fun hu _ => ?_⟩
  exact h.trans (or_iff_right fun hx => hu (hup.mpr hx))

theorem Balanced.ends (hu : ¬ up) (hdown : down ↔ x) (hx : x → ¬ there') (h : there ↔ there' ∨ x) :
    Balanced there there' up down := by
  refine ⟨fun hup => absurd hup hu,
    fun hd => ⟨hu, h.mpr (.inr (hdown.mp hd)), hx (hdown.mp hd)⟩, fun _ hd => ?_⟩
  exact (h.trans (or_iff_left fun hx => hd (hdown.mpr hx))).symm

end

theorem Raises.held {tab : Table} {e : Exc} {items items' : List Item} {obs : Obs}
    (h : Raises tab e items obs (some items')) :
    pads items' = e :: pads items ∧ handlers items' = handlers items ∧
      dtors items' = dtors items ∧ ∃ l, obs = .landed l := by
  cases h with
  | landed inner own hin hf hc =>
      refine ⟨?_, ?_, ?_, _, rfl⟩
      · simp only [pads_pad, pads_append, pads_map_frame, List.nil_append]
      · simp only [handlers_pad, handlers_append, handlers_map_frame, List.nil_append]
      · simp only [dtors_pad, dtors_append, dtors_map_frame, List.nil_append]

theorem lastEnd_frees (e : Exc) (b : ℕ) :
    (lastEnd e).freesObj b = true ↔ e.dtor = 0 ∧ e.obj = b := by
  unfold lastEnd
  split
  · rename_i hd
    exact beq_iff_eq.trans ⟨fun h => ⟨hd, h⟩, fun h => h.2⟩
  · rename_i hd
    exact ⟨nofun, fun h => absurd h.1 hd⟩

theorem lastEnd_destroys (e : Exc) (b : ℕ) :
    (lastEnd e).destroysObj b = true ↔ e.dtor ≠ 0 ∧ e.obj = b := by
  unfold lastEnd
  split
  · rename_i hd
    exact ⟨nofun, fun h => absurd hd h.1⟩
  · rename_i hd
    exact beq_iff_eq.trans ⟨fun h => ⟨hd, h⟩, fun h => h.2⟩

section
variable {tab : Table} {items items' : List Item} {ev : Event} {obs : Obs} {s : Rt}

theorem held_balanced (h : Inv items s) (hn : Nested tab items ev obs (some items')) (b : ℕ) :
    Balanced (Held items b) (Held items' b) (ev.throws b = true) (obs.freesObj b = true) := by
  cases hn with
  | push key pcStart => exact .same nofun nofun Iff.rfl
  | setpc pc sp bp hown =>
      refine .same nofun nofun ?_
      unfold Held
      simp only [pads_append, pads_frame, handlers_append, handlers_frame, dtors_append, dtors_frame]
  | pop => exact .same nofun nofun Iff.rfl
  | throw e hnew h0 hr =>
      obtain ⟨hp, hh, hd, l, rfl⟩ := hr.held
      have hiff : Held items' b ↔ e.obj = b ∨ Held items b := by
        unfold Held
        rw [hp, hh, hd]
        simp only [List.mem_cons, or_assoc, or_and_right, exists_or, exists_eq_left]
      exact .adds beq_iff_eq nofun (fun hb => hb ▸ hnew) hiff
  | @rethrow _ e _ _ he hr =>
      obtain ⟨hp, hh, hd, l, rfl⟩ := hr.held
      refine .same nofun nofun ?_
      have hmem : e ∈ handlers items := List.mem_of_mem_head? he
      unfold Held
      rw [hp, hh, hd]
      refine exists_congr fun e' => and_congr_left fun _ => ?_
      rw [List.mem_cons]
      refine ⟨?_, Or.imp_left .inr⟩
      rintro ((rfl | h') | h')
      · exact .inr (.inl hmem)
      · exact .inl h'
      · exact .inr h'
  | resume hr =>
      obtain ⟨hp, hh, hd, l, rfl⟩ := hr.held
      refine .same nofun nofun ?_
      unfold Held
      rw [hp, hh, hd]
      rfl
  | beginCatch =>
      refine .same nofun nofun ?_
      refine exists_congr fun e' => and_congr_left fun _ => ?_
      rw [pads_pad, handlers_pad, dtors_pad, handlers_handler, pads_handler, dtors_handler,
        List.mem_cons, List.mem_cons]
      exact ⟨fun h' => by grind, fun h' => by grind⟩
  | @endOne above e rest hkeep =>
      refine .same nofun nofun ?_
      refine exists_congr fun e' => and_congr_left fun _ => ?_
      simp only [pads_append, pads_map_pad, pads_handler, handlers_append, handlers_map_pad,
        handlers_handler, dtors_append, dtors_map_pad, dtors_handler, List.nil_append,
        List.mem_cons] at hkeep ⊢
      grind
  | @endLast above e rest hp hh =>
      simp only [pads_append, pads_map_pad, handlers_append, handlers_map_pad,
        List.nil_append] at hp hh
      have hs := Slots.of_pads h
      obtain ⟨hh0, hd0⟩ := hs.alone hh
      by_cases hd : e.dtor = 0
      · have hin : Held (above.map .pad ++ .handler e :: rest) b ↔
            (∃ e' ∈ above ++ pads rest, e'.obj = b) ∨ e.obj = b := by
          unfold Held
          simp [hh0, hd0, or_and_right, exists_or]
        have hout : Held (above.map .pad ++ rest) b ↔ ∃ e' ∈ above ++ pads rest, e'.obj = b := by
          unfold Held
          simp [hh0, hd0]
        rw [if_pos hd]
        refine .ends nofun ((lastEnd_frees e b).trans (and_iff_right hd)) (fun hb hthere => ?_)
          (hin.trans (or_congr_left hout.symm))
        obtain ⟨e', he', hobj⟩ := hout.mp hthere
        have hsame := hs.distinct e' e (.inl he') (.inr (.inl List.mem_cons_self))
          (hobj.trans hb.symm)
        exact hp (hsame ▸ he')
      · -- the object is held until its destructor returns
        rw [if_neg hd]
        refine .same nofun (fun hdown => hd ((lastEnd_frees e b).mp hdown).1) ?_
        refine exists_congr fun e' => and_congr_left fun _ => ?_
        simp only [pads_dtor, pads_append, pads_map_pad, pads_handler, handlers_dtor,
          handlers_append, handlers_map_pad, handlers_handler, dtors_dtor, dtors_append,
          dtors_map_pad, dtors_handler, List.nil_append, List.mem_cons]
        grind
  | @destroyed e =>
      have hs : Slots (live items') (pads items') (handlers items') (e :: dtors items') s := h
      have hh0 := hs.busy (List.cons_ne_nil _ _)
      have hd0 : dtors items' = [] := by
        have := hs.last
        rw [List.length_cons] at this
        exact List.eq_nil_of_length_eq_zero (by omega)
      have hin : Held (.dtor e :: items') b ↔ (∃ e' ∈ pads items', e'.obj = b) ∨ e.obj = b := by
        unfold Held
        simp [hh0, hd0, or_and_right, exists_or]
      have hout : Held items' b ↔ ∃ e' ∈ pads items', e'.obj = b := by
        unfold Held
        simp [hh0, hd0]
      refine .ends nofun beq_iff_eq (fun hb hthere => ?_) (hin.trans (or_congr_left hout.symm))
      obtain ⟨e', he', hobj⟩ := hout.mp hthere
      have hsame := hs.distinct e' e (.inl he') (.inr (.inr List.mem_cons_self))
        (hobj.trans hb.symm)
      exact hs.gone e List.mem_cons_self (hsame ▸ he')

/-- A throw makes an object alive, and an object with a destructor is alive until it is
destroyed. -/
theorem alive_balanced (h : Inv items s) (hn : Nested tab items ev obs (some items')) (b : ℕ) :
    Balanced (AliveClass items b) (AliveClass items' b) (ev.throwsClass b = true)
      (obs.destroysObj b = true) := by
  cases hn with
  | push key pcStart => exact .same nofun nofun Iff.rfl
  | setpc pc sp bp hown =>
      refine .same nofun nofun ?_
      unfold AliveClass
      simp only [pads_append, pads_frame, handlers_append, handlers_frame]
  | pop => exact .same nofun nofun Iff.rfl
  | throw e hnew h0 hr =>
      obtain ⟨hp, hh, -, l, rfl⟩ := hr.held
      have hiff : AliveClass items' b ↔ (e.obj = b ∧ e.dtor ≠ 0) ∨ AliveClass items b := by
        unfold AliveClass
        rw [hp, hh]
        simp only [List.mem_cons, or_assoc, or_and_right, exists_or, exists_eq_left]
      have hup : (Event.throw e.obj e.tinfo e.dtor).throwsClass b = true ↔
          e.obj = b ∧ e.dtor ≠ 0 := by
        show (e.obj == b && e.dtor != 0) = true ↔ _
        rw [Bool.and_eq_true, beq_iff_eq, bne_iff_ne]
      refine .adds hup nofun (fun hb => ?_) hiff
      rintro ⟨e', he', hobj, -⟩
      exact hnew ⟨e', he'.imp_right .inl, hobj.trans hb.1.symm⟩
  | @rethrow _ e _ _ he hr =>
      obtain ⟨hp, hh, -, l, rfl⟩ := hr.held
      refine .same nofun nofun ?_
      have hmem : e ∈ handlers items := List.mem_of_mem_head? he
      refine exists_congr fun e' => and_congr_left fun _ => ?_
      rw [hp, hh, List.mem_cons]
      grind
  | resume hr =>
      obtain ⟨hp, hh, -, l, rfl⟩ := hr.held
      refine .same nofun nofun ?_
      unfold AliveClass
      rw [hp, hh]
      rfl
  | beginCatch =>
      refine .same nofun nofun ?_
      refine exists_congr fun e' => and_congr_left fun _ => ?_
      rw [pads_pad, handlers_pad, handlers_handler, pads_handler, List.mem_cons, List.mem_cons]
      grind
  | @endOne above e rest hkeep =>
      refine .same nofun nofun ?_
      refine exists_congr fun e' => and_congr_left fun _ => ?_
      simp only [pads_append, pads_map_pad, pads_handler, handlers_append, handlers_map_pad,
        handlers_handler, List.nil_append, List.mem_cons] at hkeep ⊢
      grind
  | @endLast above e rest hp hh =>
      simp only [pads_append, pads_map_pad, handlers_append, handlers_map_pad,
        List.nil_append] at hp hh
      have hs := Slots.of_pads h
      obtain ⟨hh0, -⟩ := hs.alone hh
      have hin : AliveClass (above.map .pad ++ .handler e :: rest) b ↔
          (∃ e' ∈ above ++ pads rest, e'.obj = b ∧ e'.dtor ≠ 0) ∨ e.obj = b ∧ e.dtor ≠ 0 := by
        unfold AliveClass
        simp [hh0, or_and_right, exists_or]
      have hout : AliveClass (if e.dtor = 0 then above.map .pad ++ rest
          else .dtor e :: (above.map .pad ++ rest)) b ↔
          ∃ e' ∈ above ++ pads rest, e'.obj = b ∧ e'.dtor ≠ 0 := by
        unfold AliveClass
        split <;> simp [hh0]
      refine .ends nofun ((lastEnd_destroys e b).trans and_comm) (fun hb hthere => ?_)
        (hin.trans (or_congr_left hout.symm))
      obtain ⟨e', he', hobj, -⟩ := hout.mp hthere
      have hsame := hs.distinct e' e (.inl he') (.inr (.inl List.mem_cons_self))
        (hobj.trans hb.1.symm)
      exact hp (hsame ▸ he')
  | destroyed => exact .same nofun nofun Iff.rfl

end

open Classical in
theorem run_balanced {tab : Table} {P : List Item → Prop} {up : Event → Bool} {down : Obs → Bool}
    (h0 : ¬ P [])
    (hstep : ∀ {items s ev obs items'}, Inv items s → Nested tab items ev obs (some items') →
      Balanced (P items) (P items') (up ev = true) (down obs = true))
    {t : List (Event × Obs)} {items : List Item} {s : Rt} (h : EhRun tab (Simple tab) t items s) :
    t.countP (fun p => up p.1) = t.countP (fun p => down p.2) + if P items then 1 else 0 := by
  induction h with
  | start => rw [if_neg h0]; rfl
  | @step t items s ev obs items' hrun hok hn ih =>
      have hinv := run_inv hrun
      obtain ⟨hup, hdown, hsame⟩ := hstep hinv hn
      rw [List.countP_cons, List.countP_cons, (step_inv hinv hok hn).1, ih]
      by_cases hu : up ev = true
      · obtain ⟨hn, hy, hd⟩ := hup hu
        rw [if_pos hu, if_neg hd, if_neg hn, if_pos hy]
      · rw [if_neg hu]
        by_cases hd : down obs = true
        · obtain ⟨-, hy, hn⟩ := hdown hd
          rw [if_pos hd, if_pos hy, if_neg hn]
        · rw [if_neg hd]
          simp only [hsame hu hd, Nat.add_zero]

open Classical in
/-- What holds of the runtime at a point of a run: it lists the live frames; every event of
well-nested code that meets the condition shows what it has to; and an object has been freed, and
its destructor called, as often as it was thrown, but for one that is held or alive now. -/
structure Exact (tab : Table) (ok : List Item → Event → Prop) (t : List (Event × Obs))
    (items : List Item) (s : Rt) : Prop where
  frames : s.frames = live items
  shows : ∀ ev obs r, ok items ev → Nested tab items ev obs r → (s.step tab ev).2 = obs
  freed : ∀ b, t.countP (fun p => p.1.throws b) =
    t.countP (fun p => p.2.freesObj b) + if Held items b then 1 else 0
  destroyed : ∀ b, t.countP (fun p => p.1.throwsClass b) =
    t.countP (fun p => p.2.destroysObj b) + if AliveClass items b then 1 else 0

theorem path_cls {use : ℕ → ℤ → Prop} {a : ℕ} {n : Option String} {off : ℤ} {u : TypeInfo}
    (h : TypeInfo.Path use (.cls a n) off u) : off = 0 ∧ u = .cls a n := by
  cases h with
  | refl => exact ⟨rfl, rfl⟩
  | step hb _ _ => simp [TypeInfo.bases] at hb

/-- On a class without bases the test is decided. -/
theorem decided_cls (a : ℕ) (n : Option String) (c : TypeInfo) : (TypeInfo.cls a n).Decided c where
  known _ _ _ h := nomatch (path_cls h).2
  straight _ u _ _ _ h hb := by
    obtain ⟨-, rfl⟩ := path_cls h
    simp [TypeInfo.bases] at hb
  twice := by
    rintro _ _ ⟨u, h, -⟩ ⟨v, h', -⟩ hne
    exact absurd ((path_cls h).1.trans (path_cls h').1.symm) hne
  once := by
    rintro off ⟨u, h, heq⟩ -
    obtain ⟨rfl, rfl⟩ := path_cls h
    exact ⟨_, .refl _, heq⟩

def classA : TypeInfo := .cls 1 (some "1A")
def classB : TypeInfo := .cls 2 (some "1B")

theorem rule_self (a : ℕ) (n : Option String) :
    Rule (some (.cls a n)) (some (.cls a n)) (some 0) := by
  refine .takes ⟨_, .refl _, by simp [TypeInfo.equal]⟩ ?_
  rintro off ⟨u, h, -⟩
  exact (path_cls h).1

/-- Three calls of one function: in a try block that catches an `A`, in the handler of that
catch and a try block for a `B`, and in the handler and an outer try block for an `A`. -/
def sites : Table :=
  [⟨10, 11, 100, [⟨1, by decide, some classA⟩]⟩, ⟨11, 12, 101, [⟨2, by decide, some classB⟩]⟩,
    ⟨12, 13, 102, [⟨1, by decide, some classA⟩]⟩]

def thrownA : Exc := ⟨0x20, some classA, 0⟩
def thrownB : Exc := ⟨0x30, some classB, 0⟩

def frameAt (pc : ℕ) : Frame := ⟨1, pc, 0x90, 0x80, 0x10⟩

def Reaches (ok : List Item → Event → Prop) (items : List Item) (s : Rt) : Prop :=
  ∃ t, EhRun sites ok t items s

theorem Reaches.to {ok : List Item → Event → Prop} {items items' : List Item}
    {s s' : Rt} {ev : Event} {obs : Obs} (h : Reaches ok items s)
    (hn : Nested sites items ev obs (some items')) (hok : ok items ev)
    (hs : (s.step sites ev).1 = s') : Reaches ok items' s' := by
  obtain ⟨t, ht⟩ := h
  rw [← hs]
  exact ⟨_, ht.step hok hn⟩

theorem raises_at {pc : ℕ} {e : Exc} {r : Site} {c : Catch} (own : List Exc)
    (hf : sites.landing (frameAt pc) = some r) (hc : r.catches = [c])
    (hm : Rule e.tinfo c.type (some 0)) :
    Raises sites e (own.map .handler ++ [.frame (frameAt pc)])
      (.landed ((frameAt pc).land r e (some (c.filter, 0))))
      (some (.pad e :: (own.map .handler ++ [.frame (frameAt pc)]))) := by
  refine .landed [] own nofun hf ?_
  rw [hc]
  exact .first (List.forall_mem_nil _) hm

theorem reaches_caught {ok : List Item → Event → Prop}
    (hok : ∀ items ev, Simple sites items ev → ok items ev) :
    Reaches ok [.handler thrownA, .frame (frameAt 10)]
      ⟨[frameAt 10], thrownA, 0x20, 0, false⟩ := by
  have h0 : Reaches ok [] .start := ⟨[], .start⟩
  have h1 := h0.to (.push 1 0x10) (hok _ _ (Nat.zero_lt_succ 255)) rfl
  have h2 := h1.to (.setpc 10 0x80 0x90 (List.forall_mem_nil _)) (hok _ _ trivial) rfl
  have h3 := h2.to (.throw thrownA (by rintro ⟨e, h | h | h, -⟩ <;> cases h) (by decide)
    (raises_at [] rfl rfl (rule_self _ _))) (hok _ _ ⟨rfl, fun _ _ _ _ c _ =>
      ⟨classA, rfl, decided_cls _ _ c⟩⟩) rfl
  exact h3.to .beginCatch (hok _ _ ⟨nofun, rfl⟩) rfl

end Aret.Eh
