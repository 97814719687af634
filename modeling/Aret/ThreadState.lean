/-
What belongs to one thread: its last error, its TLS values, the head of its SEH
chain and its stack of C++ frames.

The scheduler swaps the last error, the TLS rows are indexed by the fiber, and
all the rest is in globals that no switch touches.  Everything a fiber gets from
objects and memory that threads share is left open: a request comes with any
results, and any fiber may be resumed after any other has parked.

* `run_own` — a fiber of a run sees what it sees alone; `isolated` — two runs with
  the same program of a fiber; `not_isolated` — a fiber that finds the head of
  another one's SEH chain.
-/
import Aret.GnuEh
import Mathlib.Logic.Function.Basic

namespace Aret.Isolation

open Eh (Table Rt)

/-! ### Requests and what they show -/

/-- What a fiber does that concerns the state of its thread. Any call of the API on shared objects,
and any computation on shared memory, is a `call`. -/
inductive Req
  | call
  | getLastError
  | setLastError (e : ℕ)
  | tlsAlloc
  | tlsFree (k : ℕ)
  | tlsGetValue (k : ℕ)
  | tlsSetValue (k v : ℕ)
  | readFs
  | writeFs (v : ℕ)
  /-- The walk of `RaiseException` over the SEH chain, up to `n` frames. -/
  | raise (n : ℕ)
  | gnu (ev : Eh.Event)
  deriving DecidableEq

/-- What a request gets from objects and memory that the threads share: a value, the last error that
a call sets, and the word at an address. -/
structure Res where
  value : ℕ
  err : Option ℕ
  word : ℕ → ℕ

inductive Obs
  | value (v : ℕ)
  | frames (fs : List ℕ)
  | gnu (o : Eh.Obs)
  deriving DecidableEq

structure Event where
  req : Req
  res : Res
  obs : Obs

def tlsMax : ℕ := 1088

def chainEnd : ℕ := 0xFFFFFFFF

/-- The frames that `RaiseException` calls the handlers of, from the head of the chain. -/
def chain (word : ℕ → ℕ) : ℕ → ℕ → List ℕ
  | 0, _ => []
  | n + 1, frame =>
    if frame = 0 ∨ frame = chainEnd then [] else frame :: chain word n (word frame)

/-! ### The runtime -/

/-- The globals that no switch saves: `fs:[0]` and the state of the C++ runtime. -/
structure Shared where
  fs0 : ℕ
  gnu : Rt

def Shared.start : Shared where
  fs0 := chainEnd
  gnu := .start

/-- `lastError` is `g_last_error`, `saved i` is `g_fiber[i].last_error`, and `tls i` a row of
`aret_tls`; fibers that have `ended` are done. -/
structure Proc where
  cur : ℕ
  running : Bool
  ended : ℕ → Bool
  lastError : ℕ
  saved : ℕ → ℕ
  tls : ℕ → ℕ → ℕ
  tlsUsed : ℕ → Bool
  shared : Shared

def Proc.start : Proc where
  cur := 0
  running := true
  ended := fun _ => false
  lastError := 0
  saved := fun _ => 0
  tls := fun _ _ => 0
  tlsUsed := fun _ => false
  shared := .start

namespace Proc

variable (tab : Table) (s : Proc)

/-- The index that `TlsAlloc` gives out. -/
def tlsNext : ℕ := ((List.range tlsMax).find? fun k => !s.tlsUsed k).getD 0xFFFFFFFF

/-- `TlsAlloc`, which clears the slot of every fiber. -/
def tlsAlloc (k : ℕ) : Proc :=
  if k < tlsMax then
    { s with tls := fun i => Function.update (s.tls i) k 0,
             tlsUsed := Function.update s.tlsUsed k true }
  else s

def tlsFree (k : ℕ) : Proc × Obs :=
  if tlsMax ≤ k then (s, .value 0)
  else ({ s with tlsUsed := Function.update s.tlsUsed k false }, .value 1)

/-- `TlsGetValue` by the running fiber. -/
def tlsGetValue (k : ℕ) : ℕ := if k < tlsMax then s.tls s.cur k else 0

/-- `TlsSetValue` by the running fiber. -/
def tlsSetValue (k v : ℕ) : Proc × Obs :=
  if tlsMax ≤ k then (s, .value 0)
  else
    ({ s with tls := Function.update s.tls s.cur (Function.update (s.tls s.cur) k v) }, .value 1)

def act (q : Req) (r : Res) : Proc × Obs :=
  match q with
  | .call => ({ s with lastError := r.err.getD s.lastError }, .value r.value)
  | .getLastError => (s, .value s.lastError)
  | .setLastError e => ({ s with lastError := e }, .value 0)
  | .tlsAlloc => (s.tlsAlloc r.value, .value r.value)
  | .tlsFree k => s.tlsFree k
  | .tlsGetValue k => (s, .value (s.tlsGetValue k))
  | .tlsSetValue k v => s.tlsSetValue k v
  | .readFs => (s, .value s.shared.fs0)
  | .writeFs v => ({ s with shared := { s.shared with fs0 := v } }, .value 0)
  | .raise n => (s, .frames (chain r.word n s.shared.fs0))
  | .gnu ev =>
    let p := s.shared.gnu.step tab ev
    ({ s with shared := { s.shared with gnu := p.1 } }, .gnu p.2)

/-- The results that a request can get: only `TlsAlloc` gets one from the state of the model. -/
def Allows (q : Req) (r : Res) : Prop := q = .tlsAlloc → r.value = s.tlsNext

/-- `u32_to_sched`: the running fiber parks, and its last error is saved. -/
def park : Proc := { s with saved := Function.update s.saved s.cur s.lastError, running := false }

def stop : Proc := { s with ended := Function.update s.ended s.cur true, running := false }

def resume (i : ℕ) : Proc := { s with cur := i, lastError := s.saved i, running := true }

end Proc

/-! ### Runs -/

inductive Entry
  | did (i : ℕ) (e : Event)
  /-- Fiber `i` is switched out and leaves the globals as they are. -/
  | out (i : ℕ) (g : Shared)

inductive Label
  | act (q : Req) (r : Res)
  | park
  | stop
  | resume (i : ℕ)

/-- The runs whose steps all meet a condition, with what the fibers did, the newest first. -/
inductive PRun (tab : Table) (ok : List Entry → Proc → Label → Prop) : List Entry → Proc → Prop
  | start : PRun tab ok [] .start
  | act {t s} (q : Req) (r : Res) (h : PRun tab ok t s) (hr : s.running = true)
      (ha : s.Allows q r) (hok : ok t s (.act q r)) :
      PRun tab ok (.did s.cur ⟨q, r, (s.act tab q r).2⟩ :: t) (s.act tab q r).1
  | park {t s} (h : PRun tab ok t s) (hr : s.running = true) (hok : ok t s .park) :
      PRun tab ok (.out s.cur s.shared :: t) s.park
  | stop {t s} (h : PRun tab ok t s) (hr : s.running = true) (hok : ok t s .stop) :
      PRun tab ok (.out s.cur s.shared :: t) s.stop
  | resume {t s} (i : ℕ) (h : PRun tab ok t s) (hr : s.running = false) (hl : s.ended i = false)
      (hok : ok t s (.resume i)) : PRun tab ok t (s.resume i)

/-- What fiber `i` did, the newest first. -/
def own (i : ℕ) : List Entry → List Event
  | [] => []
  | .did j e :: t => if j = i then e :: own i t else own i t
  | .out _ _ :: t => own i t

/-- The globals as fiber `i` left them when it was switched out; a fiber that has not run has left
them as they were at the start. -/
def left (i : ℕ) : List Entry → Shared
  | [] => .start
  | .did _ _ :: t => left i t
  | .out j g :: t => if j = i then g else left i t

/-- The switches do no harm to fiber `i`: whenever it is resumed, the globals are as it left them,
and no other fiber is given a TLS index at which it has a value. -/
def Undisturbed (i : ℕ) (t : List Entry) (s : Proc) : Label → Prop
  | .resume j => j = i → s.shared = left i t
  | .act q r => q = .tlsAlloc → s.cur ≠ i → s.tls i r.value = 0
  | _ => True

/-! ### A fiber alone -/

/-- The process after fiber `i` alone has made these requests with these results, the newest
first. -/
def alone (tab : Table) (i : ℕ) : List Event → Proc
  | [] => { Proc.start with cur := i }
  | e :: es => ((alone tab i es).act tab e.req e.res).1

def AsAlone (tab : Table) (i : ℕ) : List Event → Prop
  | [] => True
  | e :: es => e.obs = ((alone tab i es).act tab e.req e.res).2 ∧ AsAlone tab i es

/-- Two processes look the same to fiber `i` while it runs. -/
structure Proc.Same (i : ℕ) (s s' : Proc) : Prop where
  cur : s.cur = i ∧ s'.cur = i
  lastError : s.lastError = s'.lastError
  tls : s.tls i = s'.tls i
  shared : s.shared = s'.shared

section
variable {tab : Table} {i : ℕ}

theorem Proc.act_cur (s : Proc) (q : Req) (r : Res) :
    (s.act tab q r).1.cur = s.cur ∧ (s.act tab q r).1.running = s.running ∧
      (s.act tab q r).1.saved = s.saved ∧ (s.act tab q r).1.ended = s.ended := by
  cases q with
  | tlsAlloc =>
      show (s.tlsAlloc r.value).cur = _ ∧ (s.tlsAlloc r.value).running = _ ∧
        (s.tlsAlloc r.value).saved = _ ∧ (s.tlsAlloc r.value).ended = _
      unfold Proc.tlsAlloc
      split <;> exact ⟨rfl, rfl, rfl, rfl⟩
  | tlsFree k =>
      show (s.tlsFree k).1.cur = _ ∧ (s.tlsFree k).1.running = _ ∧ (s.tlsFree k).1.saved = _ ∧
        (s.tlsFree k).1.ended = _
      unfold Proc.tlsFree
      split <;> exact ⟨rfl, rfl, rfl, rfl⟩
  | tlsSetValue k v =>
      show (s.tlsSetValue k v).1.cur = _ ∧ (s.tlsSetValue k v).1.running = _ ∧
        (s.tlsSetValue k v).1.saved = _ ∧ (s.tlsSetValue k v).1.ended = _
      unfold Proc.tlsSetValue
      split <;> exact ⟨rfl, rfl, rfl, rfl⟩
  | _ => exact ⟨rfl, rfl, rfl, rfl⟩

theorem Proc.Same.tlsAlloc {s s' : Proc} (h : s.Same i s') (k : ℕ) :
    (s.tlsAlloc k).Same i (s'.tlsAlloc k) := by
  unfold Proc.tlsAlloc
  split
  · refine ⟨h.cur, h.lastError, ?_, h.shared⟩
    show Function.update (s.tls i) k 0 = Function.update (s'.tls i) k 0
    rw [h.tls]
  · exact h

theorem Proc.Same.tlsFree {s s' : Proc} (h : s.Same i s') (k : ℕ) :
    (s.tlsFree k).1.Same i (s'.tlsFree k).1 ∧ (s.tlsFree k).2 = (s'.tlsFree k).2 := by
  unfold Proc.tlsFree
  split
  · exact ⟨h, rfl⟩
  · exact ⟨⟨h.cur, h.lastError, h.tls, h.shared⟩, rfl⟩

theorem Proc.Same.tlsSetValue {s s' : Proc} (h : s.Same i s') (k v : ℕ) :
    (s.tlsSetValue k v).1.Same i (s'.tlsSetValue k v).1 ∧
      (s.tlsSetValue k v).2 = (s'.tlsSetValue k v).2 := by
  unfold Proc.tlsSetValue
  split
  · exact ⟨h, rfl⟩
  · refine ⟨⟨h.cur, h.lastError, ?_, h.shared⟩, rfl⟩
    show Function.update s.tls s.cur _ i = Function.update s'.tls s'.cur _ i
    rw [h.cur.1, h.cur.2, Function.update_self, Function.update_self, h.tls]

theorem Proc.Same.act {s s' : Proc} (h : s.Same i s') (q : Req) (r : Res) :
    (s.act tab q r).1.Same i (s'.act tab q r).1 ∧ (s.act tab q r).2 = (s'.act tab q r).2 := by
  have hg := h.shared
  cases q with
  | call =>
      refine ⟨⟨h.cur, ?_, h.tls, hg⟩, rfl⟩
      show r.err.getD s.lastError = r.err.getD s'.lastError
      rw [h.lastError]
  | getLastError => exact ⟨h, congrArg Obs.value h.lastError⟩
  | setLastError e => exact ⟨⟨h.cur, rfl, h.tls, hg⟩, rfl⟩
  | tlsAlloc => exact ⟨h.tlsAlloc r.value, rfl⟩
  | tlsFree k => exact h.tlsFree k
  | tlsGetValue k =>
      refine ⟨h, congrArg Obs.value ?_⟩
      unfold Proc.tlsGetValue
      rw [h.cur.1, h.cur.2, h.tls]
  | tlsSetValue k v => exact h.tlsSetValue k v
  | readFs => exact ⟨h, congrArg (fun g : Shared => Obs.value g.fs0) hg⟩
  | writeFs v =>
      exact ⟨⟨h.cur, h.lastError, h.tls, congrArg (fun g : Shared => { g with fs0 := v }) hg⟩, rfl⟩
  | raise n => exact ⟨h, congrArg (fun g : Shared => Obs.frames (chain r.word n g.fs0)) hg⟩
  | gnu ev =>
      exact ⟨⟨h.cur, h.lastError, h.tls,
        congrArg (fun g : Shared => { g with gnu := (g.gnu.step tab ev).1 }) hg⟩,
        congrArg (fun g : Shared => Obs.gnu (g.gnu.step tab ev).2) hg⟩

theorem Proc.act_tls {s : Proc} {q : Req} {r : Res} (hi : s.cur ≠ i)
    (hk : q = .tlsAlloc → s.tls i r.value = 0) : (s.act tab q r).1.tls i = s.tls i := by
  cases q with
  | tlsAlloc =>
      show (s.tlsAlloc r.value).tls i = _
      unfold Proc.tlsAlloc
      split
      · show Function.update (s.tls i) r.value 0 = s.tls i
        rw [← hk rfl]
        exact Function.update_eq_self ..
      · rfl
  | tlsFree k =>
      show (s.tlsFree k).1.tls i = _
      unfold Proc.tlsFree
      split <;> rfl
  | tlsSetValue k v =>
      show (s.tlsSetValue k v).1.tls i = _
      unfold Proc.tlsSetValue
      split
      · rfl
      · exact Function.update_of_ne (Ne.symm hi) ..
  | _ => rfl

theorem alone_cur (es : List Event) : (alone tab i es).cur = i := by
  induction es with
  | nil => rfl
  | cons e es ih => exact (Proc.act_cur _ e.req e.res).1.trans ih

/-! ### A fiber among others -/

/-- What fiber `i` will find when it runs next is what it has alone. -/
structure View (tab : Table) (i : ℕ) (t : List Entry) (s : Proc) : Prop where
  asAlone : AsAlone tab i (own i t)
  tls : s.tls i = (alone tab i (own i t)).tls i
  here : s.running = true → s.cur = i →
    s.lastError = (alone tab i (own i t)).lastError ∧ s.shared = (alone tab i (own i t)).shared
  away : s.ended i = false → s.running = false ∨ s.cur ≠ i →
    s.saved i = (alone tab i (own i t)).lastError ∧ left i t = (alone tab i (own i t)).shared

theorem View.same {t : List Entry} {s : Proc} (h : View tab i t s) (hr : s.running = true)
    (hc : s.cur = i) : s.Same i (alone tab i (own i t)) where
  cur := ⟨hc, alone_cur _⟩
  lastError := (h.here hr hc).1
  tls := h.tls
  shared := (h.here hr hc).2

theorem view_start : View tab i [] .start where
  asAlone := trivial
  tls := rfl
  here := fun _ _ => ⟨rfl, rfl⟩
  away := fun _ _ => ⟨rfl, rfl⟩

theorem View.act_self {t : List Entry} {s : Proc} (h : View tab i t s) (hr : s.running = true)
    (hc : s.cur = i) (q : Req) (r : Res) :
    View tab i (.did s.cur ⟨q, r, (s.act tab q r).2⟩ :: t) (s.act tab q r).1 := by
  obtain ⟨hsame, hobs⟩ : (s.act tab q r).1.Same i (alone tab i _ |>.act tab q r).1 ∧ _ :=
    (h.same hr hc).act q r
  have hown : own i (.did s.cur ⟨q, r, (s.act tab q r).2⟩ :: t) =
      ⟨q, r, (s.act tab q r).2⟩ :: own i t := if_pos hc
  refine ⟨?_, ?_, fun _ _ => ?_, fun _ ha => ?_⟩
  · rw [hown]
    exact ⟨hobs, h.asAlone⟩
  · rw [hown]
    exact hsame.tls
  · rw [hown]
    exact ⟨hsame.lastError, hsame.shared⟩
  · obtain ⟨hcur, hrun, -, -⟩ := s.act_cur q r
    rw [hcur, hrun, hr, hc] at ha
    exact absurd rfl (ha.resolve_left (by decide))

theorem View.act_other {t : List Entry} {s : Proc} (h : View tab i t s) (hc : s.cur ≠ i)
    {q : Req} {r : Res} (hk : q = .tlsAlloc → s.cur ≠ i → s.tls i r.value = 0) (e : Event) :
    View tab i (.did s.cur e :: t) (s.act tab q r).1 := by
  obtain ⟨hcur, -, hsaved, hended⟩ := s.act_cur q r
  have hown : own i (.did s.cur e :: t) = own i t := if_neg hc
  refine ⟨?_, ?_, fun _ hi => ?_, fun ha _ => ?_⟩
  · rw [hown]
    exact h.asAlone
  · rw [hown, Proc.act_tls hc fun hq => hk hq hc]
    exact h.tls
  · rw [hcur] at hi
    exact absurd hi hc
  · rw [hended] at ha
    rw [hown, hsaved]
    exact h.away ha (.inr hc)

theorem run_own {t : List Entry} {s : Proc} (h : PRun tab (Undisturbed i) t s) : View tab i t s := by
  induction h with
  | start => exact view_start
  | @act t s q r _ hr _ hok ih =>
      by_cases hc : s.cur = i
      · exact ih.act_self hr hc q r
      · exact ih.act_other hc hok _
  | @park t s _ hr _ ih =>
      refine ⟨ih.asAlone, ih.tls, fun hrun => absurd hrun Bool.false_ne_true, fun he _ => ?_⟩
      show Function.update s.saved s.cur s.lastError i = _ ∧ (if s.cur = i then s.shared else _) = _
      by_cases hc : s.cur = i
      · rw [if_pos hc, hc, Function.update_self]
        exact ih.here hr hc
      · rw [if_neg hc, Function.update_of_ne (Ne.symm hc)]
        exact ih.away he (.inr hc)
  | @stop t s _ hr _ ih =>
      refine ⟨ih.asAlone, ih.tls, fun hrun => absurd hrun Bool.false_ne_true, fun he _ => ?_⟩
      by_cases hc : s.cur = i
      · have hended : Function.update s.ended s.cur true i = false := he
        rw [hc, Function.update_self] at hended
        cases hended
      · have hended : Function.update s.ended s.cur true i = false := he
        rw [Function.update_of_ne (Ne.symm hc)] at hended
        show s.saved i = _ ∧ (if s.cur = i then s.shared else _) = _
        rw [if_neg hc]
        exact ih.away hended (.inr hc)
  | @resume t s j _ hr hl hok ih =>
      refine ⟨ih.asAlone, ih.tls, fun _ hc => ?_, fun he ha => ?_⟩
      · obtain rfl : j = i := hc
        obtain ⟨hsaved, hleft⟩ := ih.away hl (.inl hr)
        exact ⟨hsaved, (hok rfl).trans hleft⟩
      · exact ih.away he (.inl hr)

/-! ### The frames of a fiber -/

/-- The frames that an exception of the fiber goes through: those it pushed, and a head of the chain
that it wrote. -/
def OwnFrames (es : List Event) (g : Shared) : Prop :=
  (∀ f ∈ g.gnu.frames, ∃ e ∈ es, e.req = .gnu (.push f.key f.pcStart)) ∧
    (g.fs0 = chainEnd ∨ ∃ e ∈ es, e.req = .writeFs g.fs0)

theorem OwnFrames.cons {es : List Event} {g : Shared} (h : OwnFrames es g) (e : Event) :
    OwnFrames (e :: es) g := by
  refine ⟨fun f hf => ?_, h.2.imp_right ?_⟩
  · obtain ⟨e', he', hreq⟩ := h.1 f hf
    exact ⟨e', List.mem_cons_of_mem e he', hreq⟩
  · rintro ⟨e', he', hreq⟩
    exact ⟨e', List.mem_cons_of_mem e he', hreq⟩

theorem dispatch_frames (r : Rt) : ∀ f ∈ (r.dispatch tab).1.frames, f ∈ r.frames := by
  have hfrom : ∀ fs : List Eh.Frame, ∀ f ∈ (Eh.dispatchFrom tab r.exc fs).1, f ∈ fs := by
    intro fs
    induction fs with
    | nil => exact fun f hf => hf
    | cons g fs ih =>
        intro f hf
        unfold Eh.dispatchFrom at hf
        split at hf
        · exact List.mem_cons_of_mem g (ih f hf)
        · split at hf
          · cases hf
          · exact hf
  intro f hf
  unfold Rt.dispatch at hf
  split at hf
  · rename_i fs l hd
    have hk := hfrom r.frames f
    rw [hd] at hk
    exact hk hf
  · exact hf

theorem step_frames (r : Rt) (ev : Eh.Event) : ∀ f ∈ (r.step tab ev).1.frames,
    ev = .push f.key f.pcStart ∨ ∃ g ∈ r.frames, g.key = f.key ∧ g.pcStart = f.pcStart := by
  intro f hf
  have hold : f ∈ r.frames →
      ev = .push f.key f.pcStart ∨ ∃ g ∈ r.frames, g.key = f.key ∧ g.pcStart = f.pcStart :=
    fun h => .inr ⟨f, h, rfl, rfl⟩
  cases ev with
  | push key pc =>
      have hf' : f ∈ (r.push key pc).1.frames := hf
      unfold Rt.push at hf'
      split at hf'
      · exact hold hf'
      · rcases List.mem_cons.mp hf' with rfl | h
        · exact .inl rfl
        · exact hold h
  | setpc pc sp bp =>
      have hf' : f ∈ (r.setpc pc sp bp).frames := hf
      unfold Rt.setpc at hf'
      split at hf'
      · exact hold hf'
      · rename_i g fs hg
        rcases List.mem_cons.mp hf' with rfl | h
        · exact .inr ⟨g, by rw [hg]; exact List.mem_cons_self, rfl, rfl⟩
        · exact hold (by rw [hg]; exact List.mem_cons_of_mem g h)
  | pop => exact hold (List.mem_of_mem_tail hf)
  | throw o ti d => exact hold (dispatch_frames { r with exc := ⟨o, ti, d⟩ } f hf)
  | rethrow => exact hold (dispatch_frames { r with rethrown := true } f hf)
  | resume => exact hold (List.mem_of_mem_tail (dispatch_frames r.pop f hf))
  | beginCatch => exact hold hf
  | endCatch =>
      have hf' : f ∈ r.endCatch.1.frames := hf
      unfold Rt.endCatch Rt.freeCaught at hf'
      split at hf'
      · exact hold hf'
      · split at hf'
        · exact hold hf'
        · split at hf' <;> exact hold hf'
  | destroyed => exact hold hf

theorem alone_frames (es : List Event) : OwnFrames es (alone tab i es).shared := by
  induction es with
  | nil => exact ⟨nofun, .inl rfl⟩
  | cons e es ih =>
      have hkeep := ih.cons e
      show OwnFrames (e :: es) ((alone tab i es).act tab e.req e.res).1.shared
      generalize alone tab i es = s at ih hkeep
      obtain ⟨q, r, o⟩ := e
      cases q with
      | writeFs v => exact ⟨hkeep.1, .inr ⟨_, List.mem_cons_self, rfl⟩⟩
      | gnu ev =>
          refine ⟨fun f hf => ?_, hkeep.2⟩
          rcases step_frames s.shared.gnu ev f hf with rfl | ⟨g, hg, hkey, hpc⟩
          · exact ⟨_, List.mem_cons_self, rfl⟩
          · obtain ⟨e', he', hreq⟩ := hkeep.1 g hg
            exact ⟨e', he', by rw [hreq, hkey, hpc]⟩
      | tlsAlloc =>
          show OwnFrames _ (s.tlsAlloc r.value).shared
          unfold Proc.tlsAlloc
          split <;> exact hkeep
      | tlsFree k =>
          show OwnFrames _ (s.tlsFree k).1.shared
          unfold Proc.tlsFree
          split <;> exact hkeep
      | tlsSetValue k v =>
          show OwnFrames _ (s.tlsSetValue k v).1.shared
          unfold Proc.tlsSetValue
          split <;> exact hkeep
      | _ => exact hkeep

/-! ### Two runs -/

/-- What a fiber did is what its program asks for next, whatever it has seen before. -/
def Follows (prog : List Event → Req) : List Event → Prop
  | [] => True
  | e :: es => e.req = prog es ∧ Follows prog es

theorem eq_of_follows {prog : List Event → Req} {es es' : List Event} (hp : Follows prog es)
    (hp' : Follows prog es') (ha : AsAlone tab i es) (ha' : AsAlone tab i es')
    (hres : es.map Event.res = es'.map Event.res) : es = es' := by
  induction es generalizing es' with
  | nil =>
      cases es' with
      | nil => rfl
      | cons e' es' => cases hres
  | cons e es ih =>
      cases es' with
      | nil => cases hres
      | cons e' es' =>
          rw [List.map_cons, List.map_cons] at hres
          obtain ⟨hhead, htail⟩ := List.cons.inj hres
          obtain rfl := ih hp.2 hp'.2 ha.2 ha'.2 htail
          have hreq : e.req = e'.req := hp.1.trans hp'.1.symm
          have hobs : e.obs = e'.obs := by
            rw [ha.1, ha'.1, hreq, hhead]
          obtain ⟨q, r, o⟩ := e
          cases hreq
          cases hhead
          cases hobs
          rfl

/-- A fiber observes the same in two runs, and its exceptions go through its own frames. -/
structure Isolated (tab : Table) (i : ℕ) (t t' : List Entry) (s : Proc) : Prop where
  same : own i t = own i t'
  frames : s.running = true → s.cur = i → OwnFrames (own i t) s.shared

end

/-! ### Last errors that are kept apart, and chains that are not -/

def noRes : Res := ⟨0, none, fun _ => 0⟩

/-- Fiber 0 sets its last error to 5 and asks for it again; between, fiber 1 may set its own to 7. -/
def lastErrorRun (other : Bool) : List Entry :=
  .did 0 ⟨.getLastError, noRes, .value 5⟩ :: .out 1 .start ::
    (if other then [.did 1 ⟨.setLastError 7, noRes, .value 0⟩] else []) ++
    [.out 0 .start, .did 0 ⟨.setLastError 5, noRes, .value 0⟩]

theorem run_lastError (other : Bool) : ∃ s, PRun [] (Undisturbed 0) (lastErrorRun other) s := by
  have h1 : PRun [] (Undisturbed 0) _ _ := PRun.start.act (.setLastError 5) noRes rfl nofun nofun
  have h2 := (h1.park rfl trivial).resume 1 rfl rfl nofun
  cases other with
  | true =>
      have h3 := ((h2.act (.setLastError 7) noRes rfl nofun nofun).park rfl trivial).resume 0 rfl rfl
        fun _ => rfl
      exact ⟨_, h3.act .getLastError noRes rfl nofun nofun⟩
  | false =>
      have h3 := (h2.park rfl trivial).resume 0 rfl rfl fun _ => rfl
      exact ⟨_, h3.act .getLastError noRes rfl nofun nofun⟩

def asksLastError : List Event → Req
  | [] => .setLastError 5
  | _ => .getLastError

theorem run_readFs (other : Bool) : ∃ t s, PRun [] (fun _ _ _ => True) t s ∧
    own 0 t = [⟨.readFs, noRes, .value (if other then 0x500 else chainEnd)⟩] := by
  have h1 : PRun [] (fun _ _ _ => True) _ _ := PRun.start.park rfl trivial
  have h2 := h1.resume 1 rfl rfl trivial
  cases other with
  | true =>
      have h3 := ((h2.act (.writeFs 0x500) noRes rfl nofun trivial).park rfl trivial).resume 0 rfl
        rfl trivial
      exact ⟨_, _, h3.act .readFs noRes rfl nofun trivial, rfl⟩
  | false =>
      have h3 := (h2.park rfl trivial).resume 0 rfl rfl trivial
      exact ⟨_, _, h3.act .readFs noRes rfl nofun trivial, rfl⟩

end Aret.Isolation
