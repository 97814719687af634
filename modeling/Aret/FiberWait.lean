/-
Waits are atomic and exact, in every run whose steps meet `WaitsFine`.

A wait that returns success finds its objects signalled and consumes exactly the
ones it reports, in the step in which it returns; one that times out does so at
its deadline, with its condition false, and consumes nothing (`waits_exact`).

* `waits_exact` — the result, for every step of every such run.
-/
import Aret.FiberRun

namespace Aret.Threads

/-! ### Consuming objects -/

/-- The objects listed in `hs` are consumed for fiber `i` and no others: an auto-reset event is
reset, a mutex is owned once more for each time it is listed, and a semaphore goes down by one
for each time. -/
structure Consumed (o : Objs) (i : ℕ) (hs : List ℕ) (o' : Objs) : Prop where
  tables : o' = { o with event := o'.event, mutex := o'.mutex, sem := o'.sem }
  event : ∀ k, o'.event k =
    if (∃ h ∈ hs, o.eventIdx h = some k) ∧ (o.event k).manual = false then
      { o.event k with signaled := false }
    else o.event k
  mutex : ∀ k, o'.mutex k =
    if ∃ h ∈ hs, o.mutexIdx h = some k then
      { o.mutex k with
        owner := i + 1,
        depth := int32 ((o.mutex k).depth + hs.countP fun h => o.mutexIdx h = some k) }
    else o.mutex k
  sem : ∀ k, o'.sem k = { o.sem k with
    count := (o.sem k).count - hs.countP fun h => o.semIdx h = some k }

def SemsSuffice (o : Objs) (hs : List ℕ) : Prop :=
  ∀ h ∈ hs, ∀ k ∈ o.semIdx h,
    ((hs.countP fun h => o.semIdx h = some k : ℕ) : ℤ) ≤ (o.sem k).count

theorem int32_add_int32 (x y : ℤ) : int32 (int32 x + y) = int32 (x + y) :=
  Int.bmod_add_bmod

theorem Consumed.nil (o : Objs) (i : ℕ) : Consumed o i [] o :=
  ⟨rfl, fun k => by simp, fun k => by simp, fun k => by simp⟩

section
variable {o o₁ o₂ : Objs} {i h : ℕ} {hs : List ℕ}

theorem Consumed.eventIdx (c : Consumed o i hs o₁) : o₁.eventIdx = o.eventIdx := by
  rw [c.tables]
  rfl

theorem Consumed.mutexIdx (c : Consumed o i hs o₁) : o₁.mutexIdx = o.mutexIdx := by
  rw [c.tables]
  rfl

theorem Consumed.semIdx (c : Consumed o i hs o₁) : o₁.semIdx = o.semIdx := by
  rw [c.tables]
  rfl

theorem Consumed.cons (c₁ : Consumed o i [h] o₁) (c₂ : Consumed o₁ i hs o₂) :
    Consumed o i (h :: hs) o₂ where
  tables := by
    rw [c₂.tables, c₁.tables]
  event k := by
    rw [c₂.event k, c₁.eventIdx, c₁.event k]
    by_cases hk : o.eventIdx h = some k <;> by_cases hm : (o.event k).manual = false <;>
      simp [hk, hm]
  mutex k := by
    rw [c₂.mutex k, c₁.mutexIdx, c₁.mutex k]
    by_cases hk : o.mutexIdx h = some k
    · by_cases hmem : ∃ a ∈ hs, o.mutexIdx a = some k
      · rw [if_pos hmem, if_pos ⟨h, List.mem_singleton_self h, hk⟩,
          if_pos ⟨h, List.mem_cons_self, hk⟩]
        simp only [List.countP_cons, List.countP_nil, hk, decide_true, if_true]
        rw [int32_add_int32]
        push_cast
        ring_nf
      · have hz : (hs.countP fun a => o.mutexIdx a = some k) = 0 := by
          rw [List.countP_eq_zero]
          intro a ha hka
          exact hmem ⟨a, ha, by simpa using hka⟩
        rw [if_neg hmem, if_pos ⟨h, List.mem_singleton_self h, hk⟩,
          if_pos ⟨h, List.mem_cons_self, hk⟩]
        simp [hk, hz]
    · simp [hk]
  sem k := by
    rw [c₂.sem k, c₁.semIdx, c₁.sem k]
    simp only [List.countP_cons, List.countP_nil]
    push_cast
    ring_nf

end

theorem handleAcquire_consumed {o : Objs} {h : ℕ} (i : ℕ)
    (hsem : ∀ k, o.semIdx h = some k → 0 < (o.sem k).count) :
    Consumed o i [h] (o.handleAcquire h i) := by
  unfold Objs.handleAcquire
  cases he : o.eventIdx h with
  | some e =>
      have hm := mutexIdx_none_of_eventIdx he
      have hs := semIdx_none_of_eventIdx he
      show Consumed o i [h] (if _ then _ else _)
      split
      · rename_i hman
        refine ⟨rfl, fun k => ?_, fun k => by simp [hm], fun k => by simp [hs]⟩
        rw [if_neg]
        rintro ⟨⟨a, ha, hk⟩, hk'⟩
        rw [List.mem_singleton.mp ha, he] at hk
        cases hk
        rw [hman] at hk'
        cases hk'
      · rename_i hman
        refine ⟨rfl, fun k => ?_, fun k => by simp [hm, Objs.setEvent], fun k => by
          simp [hs, Objs.setEvent]⟩
        by_cases hk : e = k
        · subst hk
          rw [if_pos ⟨⟨h, List.mem_singleton_self h, he⟩, by simpa using hman⟩]
          simp [Objs.setEvent]
        · rw [if_neg (by simp [he, hk])]
          exact Function.update_of_ne (Ne.symm hk) _ _
  | none =>
      cases hm : o.mutexIdx h with
      | some m =>
          have hs := semIdx_none_of_mutexIdx hm
          refine ⟨rfl, fun k => by simp [he, Objs.setMutex], fun k => ?_, fun k => by
            simp [hs, Objs.setMutex]⟩
          by_cases hk : m = k
          · subst hk
            rw [if_pos ⟨h, List.mem_singleton_self h, hm⟩]
            simp [Objs.setMutex, hm]
          · rw [if_neg (by simp [hm, hk])]
            exact Function.update_of_ne (Ne.symm hk) _ _
      | none =>
          cases hs : o.semIdx h with
          | some c =>
              show Consumed o i [h] (if _ then _ else _)
              rw [if_pos (hsem c hs)]
              refine ⟨rfl, fun k => by simp [he, Objs.setSem], fun k => by
                simp [hm, Objs.setSem], fun k => ?_⟩
              by_cases hk : c = k
              · subst hk
                simp [Objs.setSem, hs]
              · have hn : ¬ o.semIdx h = some k := by
                  rw [hs]
                  simpa using hk
                simp [Objs.setSem, hn, Function.update_of_ne (Ne.symm hk)]
          | none => exact ⟨rfl, fun k => by simp [he], fun k => by simp [hm], fun k => by
              simp [hs]⟩

theorem foldl_handleAcquire_consumed (i : ℕ) (hs : List ℕ) {o : Objs} (hsem : SemsSuffice o hs) :
    Consumed o i hs (hs.foldl (fun o h => o.handleAcquire h i) o) := by
  induction hs generalizing o with
  | nil => exact .nil o i
  | cons h hs ih =>
      have hfirst : ∀ k, o.semIdx h = some k → 0 < (o.sem k).count := by
        intro k hk
        have := hsem h List.mem_cons_self k hk
        rw [List.countP_cons] at this
        simp only [hk, decide_true, if_true] at this
        push_cast at this
        omega
      have h₁ := handleAcquire_consumed i hfirst
      refine h₁.cons (ih ?_)
      intro a ha k hka
      rw [h₁.semIdx] at hka ⊢
      have hk := hsem a (List.mem_cons_of_mem h ha) k hka
      rw [h₁.sem k]
      rw [List.countP_cons] at hk
      by_cases hkey : o.semIdx h = some k
      · simp only [hkey, decide_true, if_true] at hk
        simp only [hkey, List.countP_cons, List.countP_nil, decide_true, if_true]
        push_cast at hk ⊢
        omega
      · simp only [hkey, decide_false, Bool.false_eq_true, if_false, Nat.add_zero] at hk
        simpa [hkey] using hk

/-! ### The wait or sleep in progress -/

/-- What a fiber waits for: handles, all of them or one, until a deadline. A sleep waits for no
handle. -/
structure Block where
  hs : List ℕ
  all : Bool
  deadline : Option ℕ
  deriving DecidableEq, Repr

/-- The time at which a call that waits `ms` gives up. -/
def deadlineOf (ms clock : ℕ) : Option ℕ := if ms = infinite then none else some (clock + ms)

/-- The last wait or sleep that fiber `i` called; the notes are the newest first. -/
def pending (i : ℕ) : List Note → Option Block
  | [] => none
  | .wait j hs all ms clock :: t =>
    if j = i then some ⟨hs, all, deadlineOf ms clock⟩ else pending i t
  | .sleep j ms clock :: t => if j = i then some ⟨[], false, some (clock + ms)⟩ else pending i t
  | _ :: t => pending i t

/-- The note starts a wait or sleep of fiber `i`. -/
def Note.starts (i : ℕ) : Note → Bool
  | .wait j .. | .sleep j .. => j = i
  | _ => false

theorem pending_cons {i : ℕ} {n : Note} (t : List Note) (h : n.starts i = false) :
    pending i (n :: t) = pending i t := by
  cases n with
  | wait j hs all ms clock => exact if_neg (by simpa [Note.starts] using h)
  | sleep j ms clock => exact if_neg (by simpa [Note.starts] using h)
  | _ => rfl

theorem pending_append {i : ℕ} {ns : List Note} (t : List Note)
    (h : ∀ n ∈ ns, n.starts i = false) : pending i (ns ++ t) = pending i t := by
  induction ns with
  | nil => rfl
  | cons n ns ih =>
      rw [List.cons_append, pending_cons _ (h n List.mem_cons_self)]
      exact ih fun m hm => h m (List.mem_cons_of_mem n hm)

theorem starts_of_timed {n : Note} (h : n.timed = false) (i : ℕ) : n.starts i = false := by
  cases n <;> first | rfl | cases h

/-! ### The invariant -/

/-- The timer of a parked fiber's entry is set for the deadline of its call, which the clock has
not passed; it has fired only at the deadline, and then the fiber is ready. -/
structure Due (clock : ℕ) (f : Fiber) (d : Option ℕ) : Prop where
  hasTimeout : f.hasTimeout = d.isSome
  wakeTime : ∀ x, d = some x → f.wakeTime = x ∧ clock ≤ x ∧ x < Sys.noDeadline
  timedOut : f.timedOut = true → f.state = .ready ∧ d = some clock

def ParkedOk (t : List Note) (clock i : ℕ) (f : Fiber) : Prop :=
  match f.cont with
  | .program => f.state = .ready
  | .wait _ all => f.waitH ≠ [] ∧ f.waitH.length ≤ 64 ∧ f.waitAll = all ∧
      ∃ d, pending i t = some ⟨f.waitH, all, d⟩ ∧ Due clock f d
  | .sleep => f.waitH = [] ∧
      ∃ x, pending i t = some ⟨[], false, some x⟩ ∧ Due clock f (some x)
  | _ => False

theorem ParkedOk.map {t : List Note} {c c' i : ℕ} {f f' : Fiber} (h : ParkedOk t c i f)
    (hcont : f'.cont = f.cont) (hH : f'.waitH = f.waitH) (hA : f'.waitAll = f.waitAll)
    (hst : f.cont = .program → f.state = .ready → f'.state = .ready)
    (hd : ∀ d, Due c f d → Due c' f' d) : ParkedOk t c' i f' := by
  unfold ParkedOk at h ⊢
  rw [hcont, hH, hA]
  cases hc : f.cont with
  | program =>
      rw [hc] at h
      exact hst hc h
  | wait src all =>
      rw [hc] at h
      obtain ⟨hne, hlen, hall, d, hpend, hdue⟩ := h
      exact ⟨hne, hlen, hall, d, hpend, hd _ hdue⟩
  | sleep =>
      rw [hc] at h
      obtain ⟨hnil, x, hpend, hdue⟩ := h
      exact ⟨hnil, x, hpend, hd _ hdue⟩
  | _ =>
      rw [hc] at h
      exact h.elim

structure FiberOk (t : List Note) (clock i : ℕ) (f : Fiber) : Prop where
  waitCs : f.waitCs = 0
  waitSrw : f.waitSrw = 0
  waitCv : f.waitCv = 0
  suspended : f.state = .suspended → f.cont = .program
  parked : f.state = .blocked ∨ f.state = .ready → ParkedOk t clock i f

structure Inv (t : List Note) (s : Sys) : Prop where
  fibers : ∀ i < s.nfiber, FiberOk t s.vclock i (s.fiber i)
  cur : s.cur < s.nfiber
  others : ∀ i < s.nfiber, s.mode = .scheduler ∨ s.mode = .program ∧ i ≠ s.cur →
    (s.fiber i).state ≠ .free ∧ (s.fiber i).state ≠ .running
  running : s.mode = .program → s.me.state = .free ∨ s.me.state = .running

theorem inv_start (mem : ℕ → ℕ) : Inv [] (.start mem) where
  fibers i _ := ⟨rfl, rfl, rfl, nofun, by rintro (h | h) <;> cases h⟩
  cur := by
    show 0 < 1
    omega
  others i hi h := by
    have hi0 : i = 0 := Nat.lt_one_iff.mp hi
    rcases h with h | ⟨-, h⟩
    · cases h
    · exact absurd hi0 h
  running _ := .inl rfl

theorem FiberOk.transfer {t t' : List Note} {c i : ℕ} {f : Fiber} (h : FiberOk t c i f)
    (hp : pending i t' = pending i t) : FiberOk t' c i f where
  waitCs := h.waitCs
  waitSrw := h.waitSrw
  waitCv := h.waitCv
  suspended := h.suspended
  parked hs := by
    have := h.parked hs
    unfold ParkedOk at this ⊢
    rw [hp]
    exact this

theorem FiberOk.of_state {t t' : List Note} {c c' i : ℕ} {f f' : Fiber} (h : FiberOk t c i f)
    (hcs : f'.waitCs = f.waitCs) (hsrw : f'.waitSrw = f.waitSrw) (hcv : f'.waitCv = f.waitCv)
    (hst : f'.state = .free ∨ f'.state = .running ∨ f'.state = .done) : FiberOk t' c' i f' where
  waitCs := by rw [hcs, h.waitCs]
  waitSrw := by rw [hsrw, h.waitSrw]
  waitCv := by rw [hcv, h.waitCv]
  suspended hs := by rcases hst with e | e | e <;> rw [e] at hs <;> cases hs
  parked hs := by
    rcases hst with e | e | e <;> rcases hs with hs | hs <;> rw [e] at hs <;> cases hs

theorem Inv.update {t ns : List Note} {s s' : Sys} {f : Fiber} (h : Inv t s)
    (hmode : s.mode = .program) (hfiber : s'.fiber = Function.update s.fiber s.cur f)
    (hn : s'.nfiber = s.nfiber) (hcur : s'.cur = s.cur) (hclock : s'.vclock = s.vclock)
    (hns : ∀ i ≠ s.cur, ∀ n ∈ ns, n.starts i = false)
    (hf : FiberOk (ns ++ t) s.vclock s.cur f)
    (hrun : s'.mode = .program → f.state = .free ∨ f.state = .running)
    (hpark : s'.mode = .scheduler → f.state ≠ .free ∧ f.state ≠ .running) : Inv (ns ++ t) s' where
  fibers i hlt := by
    rw [hn] at hlt
    rw [hfiber, hclock]
    by_cases hi : i = s.cur
    · subst hi
      rwa [Function.update_self]
    · rw [Function.update_of_ne hi]
      exact (h.fibers i hlt).transfer (pending_append t (hns i hi))
  cur := by
    rw [hcur, hn]
    exact h.cur
  others i hi hm := by
    rw [hn] at hi
    rw [hfiber]
    rw [hcur] at hm
    by_cases hic : i = s.cur
    · subst hic
      rw [Function.update_self]
      rcases hm with hm | ⟨-, hm⟩
      · exact hpark hm
      · exact absurd rfl hm
    · rw [Function.update_of_ne hic]
      exact h.others i hi (.inr ⟨hmode, hic⟩)
  running hm := by
    show (s'.fiber s'.cur).state = _ ∨ (s'.fiber s'.cur).state = _
    rw [hfiber, hcur, Function.update_self]
    exact hrun hm

/-! ### The runs the result is about -/

def InTime (s : Sys) (ms : ℕ) : Prop := ms = infinite ∨ s.vclock + ms < Sys.noDeadline

/-- Nothing goes wrong if the wait of fiber `i` on the handles it passed returns now, reading the
handles `now`: they are the same ones, and no semaphore is listed beyond its count. -/
def SafeTake (s : Sys) (i : ℕ) (hs now : List ℕ) (all : Bool) : Prop :=
  s.satisfied i hs all = true → now = hs ∧ (all = true → SemsSuffice s.objs hs)

/-- Fiber `i` may be resumed: if it waits, it may take its objects. -/
def SafeResume (s : Sys) (i : ℕ) : Prop :=
  match (s.fiber i).cont with
  | .wait src all => SafeTake s i (s.fiber i).waitH (s.handles src) all
  | _ => True

/-- The steps of the runs: no locks or condition variables, deadlines in the range of the clock,
at most 64 handles, and safe takes. -/
def WaitsFine (_ : List Note) (s : Sys) : Label → Prop
  | .call (.waitForSingleObject _ ms) => InTime s ms
  | .call (.waitForMultipleObjects n ph all ms) =>
    InTime s ms ∧ n ≤ 64 ∧ SafeTake s s.cur (s.handles (.array ph n)) (s.handles (.array ph n)) all
  | .call (.sleep ms) => s.vclock + ms < Sys.noDeadline
  | .call c => c.onLocks = false
  | .turn => ∀ i ∈ s.wakeRunnable.pick, SafeResume s i

/-- The wait `b` of fiber `i` may return `r` in state `s` with the objects `o'`: it is satisfied
and takes all its objects, or the first that is signalled. -/
def Taken (s : Sys) (i r : ℕ) (b : Block) (o' : Objs) : Prop :=
  s.satisfied i b.hs b.all = true ∧
    if b.all then r = 0 ∧ Consumed s.objs i b.hs o'
    else ∃ h, b.hs[r]? = some h ∧ s.handleSignaledFor h i = true ∧
      (∀ k < r, ∀ h', b.hs[k]? = some h' → s.handleSignaledFor h' i = false) ∧
      Consumed s.objs i [h] o'

/-- Fiber `i` takes part in the run: it has started and not ended. -/
def Sys.live (s : Sys) (i : ℕ) : Prop :=
  i < s.nfiber ∧ (s.fiber i).state ≠ .suspended ∧ (s.fiber i).state ≠ .done

def Deadlocked (t : List Note) (s : Sys) : Prop :=
  (∃ i, s.live i) ∧ ∀ i, s.live i → (s.fiber i).state = .blocked ∧
    ∃ b, pending i t = some b ∧ b.deadline = none ∧ s.satisfied i b.hs b.all = false

def Label.waits : Label → Bool
  | .call (.waitForSingleObject ..) | .call (.waitForMultipleObjects ..) | .turn => true
  | _ => false

/-- What is exact about the waits of a step: those that return success, those that time out, and
those that start or go on. -/
structure WaitExact (t : List Note) (s : Sys) (l : Label) (ns : List Note) (s' : Sys) : Prop where
  success : ∀ i r, .waited i r ∈ ns → r ≠ waitTimeout →
    ∃ b, pending i (ns ++ t) = some b ∧ Taken s i r b s'.objs
  timeout : ∀ i, .waited i waitTimeout ∈ ns →
    ∃ b, pending i (ns ++ t) = some b ∧ b.deadline = some s.vclock ∧
      s.satisfied i b.hs b.all = false ∧ s'.objs = s.objs
  idle : l.waits = true → (∀ i r, .waited i r ∉ ns) → s'.objs = s.objs

/-- What is exact about a step of a run with the notes `t` so far: waits, the clock, the fibers
that have ended, and the report of a deadlock. -/
structure WaitStep (t : List Note) (s : Sys) (l : Label) (ns : List Note) (s' : Sys) : Prop
    extends WaitExact t s l ns s' where
  clock : s.vclock ≤ s'.vclock
  clockMoves : s'.vclock ≠ s.vclock → ∀ i < s.nfiber,
    (s.fiber i).state ≠ .ready ∧ ((s.fiber i).state = .blocked → s.fiberRunnable i = false)
  ended : ∀ i < s.nfiber, (s.fiber i).state = .done →
    (s'.fiber i).state = .done ∧ (s'.mode = .program → s'.cur ≠ i)
  deadlock : s'.mode = .deadlock ↔ l = .turn ∧ Deadlocked t s

/-! ### The end of a wait -/

section
variable (s : Sys) (hs : List ℕ) (all : Bool)

@[simp] theorem waitTake_fiber : (s.waitTake hs all).1.fiber =
    Function.update s.fiber s.cur { s.me with waitH := [], cont := .program } := by
  simp [Sys.waitTake, Sys.me]

@[simp] theorem waitTake_nfiber : (s.waitTake hs all).1.nfiber = s.nfiber := rfl
@[simp] theorem waitTake_cur : (s.waitTake hs all).1.cur = s.cur := rfl
@[simp] theorem waitTake_vclock : (s.waitTake hs all).1.vclock = s.vclock := rfl

@[simp] theorem waitTimedOut_fiber : s.waitTimedOut.1.fiber =
    Function.update s.fiber s.cur { s.me with waitH := [], cont := .program } := by
  simp [Sys.waitTimedOut, Sys.me]

@[simp] theorem waitTimedOut_nfiber : s.waitTimedOut.1.nfiber = s.nfiber := rfl
@[simp] theorem waitTimedOut_cur : s.waitTimedOut.1.cur = s.cur := rfl
@[simp] theorem waitTimedOut_vclock : s.waitTimedOut.1.vclock = s.vclock := rfl
@[simp] theorem waitTimedOut_notes :
    s.waitTimedOut.2 = [.ret s.cur waitTimeout, .waited s.cur waitTimeout] := rfl

theorem waitTake_notes {n : Note} (hn : n ∈ (s.waitTake hs all).2) :
    n = .waited s.cur (s.waitIdx hs all) ∨ n.timed = false := by
  unfold Sys.waitTake at hn
  simp only [Sys.return_notes, List.mem_cons] at hn
  rcases hn with rfl | rfl | hn
  · exact .inr rfl
  · exact .inl rfl
  · refine .inr ?_
    rw [List.mem_filterMap] at hn
    obtain ⟨h, -, hh⟩ := hn
    exact Note.timed_of_plain (acquireNote_plain hh)

theorem waitTake_notes_start {n : Note} (hn : n ∈ (s.waitTake hs all).2) (i : ℕ) :
    n.starts i = false := by
  rcases waitTake_notes s hs all hn with rfl | h
  · rfl
  · exact starts_of_timed h i

end

theorem sem_pos_of_signaled {s : Sys} {h i k : ℕ} (hsig : s.handleSignaledFor h i = true)
    (hk : s.objs.semIdx h = some k) : 0 < (s.objs.sem k).count := by
  have hb := handleIdx_base hk
  have ht : s.threadIdx h = none := by
    unfold Sys.threadIdx handleIdx
    rw [if_neg]
    rintro ⟨he, -⟩
    rw [hb] at he
    exact absurd he (by decide)
  unfold Sys.handleSignaledFor at hsig
  rw [ht, (idx_none_of_semIdx hk).1, (idx_none_of_semIdx hk).2, hk] at hsig
  simpa using hsig

theorem waitTake_taken (s : Sys) {hs : List ℕ} {all : Bool} (d : Option ℕ)
    (hsat : s.satisfied s.cur hs all = true) (hsem : all = true → SemsSuffice s.objs hs) :
    Taken s s.cur (s.waitIdx hs all) ⟨hs, all, d⟩ (s.waitTake hs all).1.objs := by
  refine ⟨hsat, ?_⟩
  cases all with
  | true =>
      show _ = 0 ∧ Consumed _ _ _ _
      exact ⟨rfl, foldl_handleAcquire_consumed s.cur hs (hsem rfl)⟩
  | false =>
      have hany : hs.any (fun h => s.handleSignaledFor h s.cur) = true := hsat
      obtain ⟨k, hk⟩ : ∃ k, hs.findIdx? (fun h => s.handleSignaledFor h s.cur) = some k := by
        rw [← Option.isSome_iff_exists, List.findIdx?_isSome]
        exact hany
      have hidx : s.waitIdx hs false = k := by
        simp [Sys.waitIdx, hk]
      obtain ⟨hlt, hsig, hleast⟩ := List.findIdx?_eq_some_iff_getElem.mp hk
      have hget : hs[k]? = some hs[k] := List.getElem?_eq_getElem hlt
      have htake : (s.waitTake hs false).1.objs = s.objs.handleAcquire hs[k] s.cur := by
        simp [Sys.waitTake, hk, hget]
      rw [hidx, htake]
      show ∃ h, hs[k]? = some h ∧ _
      refine ⟨hs[k], hget, hsig, ?_, handleAcquire_consumed _ fun m => sem_pos_of_signaled hsig⟩
      intro j hj h' hh'
      have hjl : j < hs.length := by omega
      rw [List.getElem?_eq_getElem hjl] at hh'
      cases hh'
      simpa using hleast j hj

theorem waitIdx_ne_timeout (s : Sys) {hs : List ℕ} (all : Bool) (hlen : hs.length ≤ 64) :
    s.waitIdx hs all ≠ waitTimeout := by
  unfold Sys.waitIdx
  cases all with
  | true =>
      show 0 ≠ waitTimeout
      decide
  | false =>
      show (hs.findIdx? _).getD 0 ≠ waitTimeout
      cases hk : hs.findIdx? fun h => s.handleSignaledFor h s.cur with
      | none =>
          show 0 ≠ waitTimeout
          decide
      | some k =>
          obtain ⟨hlt, -⟩ := List.findIdx?_eq_some_iff_getElem.mp hk
          show k ≠ 258
          omega

theorem Taken.congr {s s₁ : Sys} (a : s.Alike s₁) {i r : ℕ} {b : Block} {o : Objs}
    (h : Taken s₁ i r b o) : Taken s i r b o := by
  unfold Taken at h ⊢
  simp only [a.satisfied, a.signaled, a.objs] at h
  exact h

theorem WaitExact.of_quiet {t ns : List Note} {s s' : Sys} {l : Label}
    (hns : ∀ n ∈ ns, ∀ i r, n ≠ .waited i r) (ho : l.waits = true → s'.objs = s.objs) :
    WaitExact t s l ns s' where
  success i r h := absurd rfl (hns _ h i r)
  timeout i h := absurd rfl (hns _ h i waitTimeout)
  idle hl _ := ho hl

theorem WaitExact.of_take {t ns : List Note} {s s₁ : Sys} {l : Label} {hs : List ℕ} {all : Bool}
    {d : Option ℕ} (a : s.Alike s₁) (hlen : hs.length ≤ 64)
    (hns : ∀ n ∈ ns, ∀ i r, n ≠ .waited i r)
    (hp : pending s₁.cur (ns ++ t) = some ⟨hs, all, d⟩)
    (hsat : s.satisfied s₁.cur hs all = true) (hsem : all = true → SemsSuffice s.objs hs) :
    WaitExact t s l ((s₁.waitTake hs all).2 ++ ns) (s₁.waitTake hs all).1 := by
  have honly : ∀ i r, Note.waited i r ∈ (s₁.waitTake hs all).2 ++ ns →
      i = s₁.cur ∧ r = s₁.waitIdx hs all := by
    intro i r h
    rcases List.mem_append.mp h with h | h
    · rcases waitTake_notes s₁ hs all h with e | e
      · cases e
        exact ⟨rfl, rfl⟩
      · cases e
    · exact absurd rfl (hns _ h i r)
  refine ⟨fun i r h _ => ?_, fun i h => ?_, fun _ h => ?_⟩
  · obtain ⟨rfl, rfl⟩ := honly i r h
    refine ⟨⟨hs, all, d⟩, ?_, ?_⟩
    · rw [List.append_assoc, pending_append _ fun n hn => waitTake_notes_start s₁ hs all hn _]
      exact hp
    · refine (waitTake_taken s₁ d ?_ ?_).congr a
      · rw [a.satisfied]
        exact hsat
      · rw [a.objs]
        exact hsem
  · exact absurd (honly i _ h).2.symm (waitIdx_ne_timeout s₁ all hlen)
  · exact absurd (List.mem_append_left ns (List.mem_cons_of_mem _ List.mem_cons_self))
      (h s₁.cur (s₁.waitIdx hs all))

theorem WaitExact.of_timedOut {t ns : List Note} {s s₁ : Sys} {l : Label} {hs : List ℕ}
    {all : Bool} (a : s.Alike s₁) (hns : ∀ n ∈ ns, ∀ i r, n ≠ .waited i r)
    (hp : pending s₁.cur (ns ++ t) = some ⟨hs, all, some s.vclock⟩)
    (hsat : s.satisfied s₁.cur hs all = false) :
    WaitExact t s l (s₁.waitTimedOut.2 ++ ns) s₁.waitTimedOut.1 := by
  have honly : ∀ i r, Note.waited i r ∈ s₁.waitTimedOut.2 ++ ns → i = s₁.cur ∧ r = waitTimeout := by
    intro i r h
    rcases List.mem_append.mp h with h | h
    · simpa using h
    · exact absurd rfl (hns _ h i r)
  refine ⟨fun i r h hr => absurd (honly i r h).2 hr, fun i h => ?_, fun _ h => ?_⟩
  · obtain ⟨rfl, -⟩ := honly i _ h
    exact ⟨_, hp, rfl, hsat, a.objs⟩
  · exact absurd (List.mem_append_left ns (List.mem_cons_of_mem _ List.mem_cons_self))
      (h s₁.cur waitTimeout)

/-! ### A call -/

theorem Inv.running_ok {t t' : List Note} {s : Sys} (h : Inv t s) (hm : s.mode = .program)
    {f : Fiber} (hcs : f.waitCs = s.me.waitCs) (hsrw : f.waitSrw = s.me.waitSrw)
    (hcv : f.waitCv = s.me.waitCv) (hst : f.state = s.me.state) :
    FiberOk t' s.vclock s.cur f :=
  (h.fibers s.cur h.cur).of_state hcs hsrw hcv (by
    rw [hst]
    rcases h.running hm with e | e
    · exact .inl e
    · exact .inr (.inl e))

theorem Inv.me_not_done {t : List Note} {s : Sys} (h : Inv t s) (hm : s.mode = .program) :
    (s.fiber s.cur).state ≠ .done := by
  intro hd
  rcases h.running hm with e | e <;> exact absurd (e.symm.trans hd) (by decide)

theorem Inv.ended_update {t : List Note} {s s' : Sys} {f : Fiber} (h : Inv t s)
    (hm : s.mode = .program) (hf : s'.fiber = Function.update s.fiber s.cur f)
    (hc : s'.cur = s.cur) {i : ℕ} (hd : (s.fiber i).state = .done) :
    (s'.fiber i).state = .done ∧ (s'.mode = .program → s'.cur ≠ i) := by
  have hi : i ≠ s.cur := by
    rintro rfl
    exact h.me_not_done hm hd
  rw [hf, Function.update_of_ne hi, hc]
  exact ⟨hd, fun _ => hi.symm⟩

theorem deadlineOf_lt {s : Sys} {ms : ℕ} (hin : InTime s ms) {x : ℕ}
    (hx : deadlineOf ms s.vclock = some x) : x = s.vclock + ms ∧ x < Sys.noDeadline := by
  unfold deadlineOf at hx
  split at hx
  · cases hx
  · rename_i hne
    cases hx
    rcases hin with h | h
    · exact absurd h hne
    · exact ⟨rfl, h⟩

theorem wait_exact {t : List Note} {s : Sys} {l : Label} (src : Handles) (all : Bool) (ms : ℕ)
    (hne : s.handles src ≠ []) (hlen : (s.handles src).length ≤ 64)
    (hsem : s.satisfied s.cur (s.handles src) all = true → all = true →
      SemsSuffice s.objs (s.handles src)) :
    WaitExact t s l (s.wait src all ms).2 (s.wait src all ms).1 := by
  have htake : (s.handles src).take 64 = s.handles src := List.take_of_length_le hlen
  have a : s.Alike (s.asking src all) := .of_update rfl rfl rfl Iff.rfl
  have hwait : ∀ n ∈ [Note.wait s.cur (s.handles src) all ms s.vclock],
      ∀ i r, n ≠ .waited i r := by simp
  have hpend : pending s.cur ([.wait s.cur (s.handles src) all ms s.vclock] ++ t) =
      some ⟨s.handles src, all, deadlineOf ms s.vclock⟩ := if_pos rfl
  have hok : (s.asking src all).waitOk s.cur = s.satisfied s.cur (s.handles src) all := by
    have hf : (s.asking src all).fiber s.cur =
        { s.me with waitH := s.handles src, waitAll := all } := by
      rw [asking_fiber, htake]
    rw [waitOk_eq_satisfied _ (by rw [hf]; exact hne), hf]
    exact a.satisfied ..
  rw [wait_eq, hok, htake]
  split
  · rename_i hsat
    exact .of_take a hlen hwait hpend hsat (hsem hsat)
  · rename_i hsat
    split
    · rename_i hms
      have hunsat : s.satisfied s.cur (s.handles src) all = false := by simpa using hsat
      refine .of_timedOut a hwait ?_ hunsat
      rw [hms] at hpend ⊢
      exact hpend
    · exact .of_quiet hwait fun _ => rfl

theorem starts_wait_ne {i j : ℕ} (h : i ≠ j) (hs : List ℕ) (all : Bool) (ms clock : ℕ) :
    (Note.wait j hs all ms clock).starts i = false := by
  simpa [Note.starts] using h.symm

theorem due_of_timer {s : Sys} {ms : ℕ} (hin : InTime s ms) {f : Fiber}
    (ht : f.hasTimeout = (ms != infinite)) (hw : f.wakeTime = (s.vclock + ms) % 2 ^ 64)
    (hno : f.timedOut = false) : Due s.vclock f (deadlineOf ms s.vclock) where
  hasTimeout := by
    rw [ht]
    unfold deadlineOf
    split <;> simp_all
  wakeTime x hx := by
    obtain ⟨rfl, hlt⟩ := deadlineOf_lt hin hx
    rw [hw]
    unfold Sys.noDeadline at hlt ⊢
    omega
  timedOut h := by
    rw [hno] at h
    cases h

theorem wait_inv {t : List Note} {s : Sys} (h : Inv t s) (hm : s.mode = .program)
    (src : Handles) (all : Bool) (ms : ℕ) (hne : s.handles src ≠ [])
    (hlen : (s.handles src).length ≤ 64) (hin : InTime s ms) :
    Inv ((s.wait src all ms).2 ++ t) (s.wait src all ms).1 := by
  have htake : (s.handles src).take 64 = s.handles src := List.take_of_length_le hlen
  have hnote : ∀ i ≠ s.cur, ∀ n ∈ [Note.wait s.cur (s.handles src) all ms s.vclock],
      n.starts i = false := by
    intro i hi n hn
    rw [List.mem_singleton.mp hn]
    exact starts_wait_ne hi ..
  rw [wait_eq]
  split
  · -- returns at once
    refine h.update (f := { (s.asking src all).me with waitH := [], cont := .program }) hm ?_
      rfl rfl rfl ?_ ?_ ?_ ?_
    · rw [waitTake_fiber]
      exact Function.update_idem ..
    · intro i hi n hn
      rcases List.mem_append.mp hn with hn | hn
      · exact waitTake_notes_start _ _ _ hn i
      · exact hnote i hi n hn
    · refine h.running_ok hm ?_ ?_ ?_ ?_ <;> simp [Sys.asking]
    · intro _
      simpa [Sys.asking] using h.running hm
    · intro hs
      cases hs
  · split
    · -- a poll that fails
      refine h.update (f := { (s.asking src all).me with waitH := [], cont := .program }) hm ?_
        rfl rfl rfl ?_ ?_ ?_ ?_
      · rw [waitTimedOut_fiber]
        exact Function.update_idem ..
      · intro i hi n hn
        rcases List.mem_append.mp hn with hn | hn
        · rw [waitTimedOut_notes] at hn
          simp only [List.mem_cons, List.not_mem_nil, or_false] at hn
          rcases hn with rfl | rfl <;> rfl
        · exact hnote i hi n hn
      · refine h.running_ok hm ?_ ?_ ?_ ?_ <;> simp [Sys.asking]
      · intro _
        simpa [Sys.asking] using h.running hm
      · intro hs
        cases hs
    · -- parks
      have hok := h.fibers s.cur h.cur
      refine h.update (f := { ((s.asking src all).timing ms).me with
        state := .blocked, lastError := s.lastError, cont := .wait src all }) hm ?_
        rfl rfl rfl hnote ?_ ?_ ?_
      · rw [Sys.toSched_fiber]
        show Function.update (Function.update (Function.update s.fiber s.cur _) s.cur _) s.cur _ = _
        rw [Function.update_idem, Function.update_idem]
        rfl
      · have hme : ((s.asking src all).timing ms).me = { s.me with
            waitH := s.handles src, waitAll := all, hasTimeout := ms != infinite,
            wakeTime := (s.vclock + ms) % 2 ^ 64, timedOut := false } := by
          rw [← htake]
          simp [Sys.asking, Sys.timing]
        rw [hme]
        refine ⟨hok.waitCs, hok.waitSrw, hok.waitCv, nofun, fun _ => ?_⟩
        show s.handles src ≠ [] ∧ (s.handles src).length ≤ 64 ∧ all = all ∧ ∃ d, _
        exact ⟨hne, hlen, rfl, deadlineOf ms s.vclock, if_pos rfl, due_of_timer hin rfl rfl rfl⟩
      · intro hs
        cases hs
      · intro _
        exact ⟨nofun, nofun⟩

theorem WaitStep.of_update {t ns : List Note} {s s' : Sys} {l : Label} {f : Fiber} (h : Inv t s)
    (hm : s.mode = .program) (hl : l ≠ .turn)
    (hfiber : s'.fiber = Function.update s.fiber s.cur f) (hcur : s'.cur = s.cur)
    (hclock : s'.vclock = s.vclock) (hmode : s'.mode ≠ .deadlock) (he : WaitExact t s l ns s') :
    WaitStep t s l ns s' where
  toWaitExact := he
  clock := hclock.ge
  clockMoves hne := absurd hclock hne
  ended _ _ hd := h.ended_update hm hfiber hcur hd
  deadlock := ⟨fun e => absurd e hmode, fun e => absurd e.1 hl⟩

theorem not_waited_of_timed {n : Note} (h : n.timed = false) (i r : ℕ) : n ≠ .waited i r := by
  rintro rfl
  cases h

theorem returned_step {t ns : List Note} {s s₁ : Sys} {l : Label} {v : ℕ} (h : Inv t s)
    (hm : s.mode = .program) (hl : l ≠ .turn) (same : s.Same s₁)
    (hns : ∀ n ∈ ns, n.timed = false) (ho : l.waits = true → s₁.objs = s.objs) :
    Inv ((s₁.return_ v ns).2 ++ t) (s₁.return_ v ns).1 ∧
      WaitStep t s l (s₁.return_ v ns).2 (s₁.return_ v ns).1 := by
  have hfiber : (s₁.return_ v ns).1.fiber =
      Function.update s.fiber s.cur { s.me with cont := .program } := by
    rw [Sys.return_fiber, same.fiber, same.cur]
    rfl
  have htimed : ∀ n ∈ (s₁.return_ v ns).2, n.timed = false := by
    intro n hn
    rcases List.mem_cons.mp hn with rfl | hn
    · rfl
    · exact hns n hn
  constructor
  · refine h.update hm hfiber same.nfiber same.cur same.vclock ?_ ?_ ?_ ?_
    · intro i _ n hn
      exact starts_of_timed (htimed n hn) i
    · exact h.running_ok hm rfl rfl rfl rfl
    · intro _
      exact h.running hm
    · intro hs
      cases hs
  · refine .of_update h hm hl hfiber same.cur same.vclock nofun (.of_quiet ?_ ho)
    intro n hn
    exact not_waited_of_timed (htimed n hn)

theorem other_step {t ns : List Note} {s s₁ : Sys} {l : Label} {k v : ℕ} {f : Fiber} (h : Inv t s)
    (hm : s.mode = .program) (hl : l ≠ .turn) (hw : l.waits = false) (hk : k ≠ s.cur)
    (hfiber : s₁.fiber = Function.update s.fiber k f) (hcur : s₁.cur = s.cur)
    (hn : s.nfiber ≤ s₁.nfiber) (hlt : ∀ i < s₁.nfiber, i < s.nfiber ∨ i = k)
    (hclock : s₁.vclock = s.vclock) (hf : FiberOk t s.vclock k f)
    (hst : f.state ≠ .free ∧ f.state ≠ .running)
    (hdone : k < s.nfiber → (s.fiber k).state = .done → f.state = .done)
    (hns : ∀ n ∈ ns, n.timed = false) :
    Inv ((s₁.return_ v ns).2 ++ t) (s₁.return_ v ns).1 ∧
      WaitStep t s l (s₁.return_ v ns).2 (s₁.return_ v ns).1 := by
  have hfin : ∀ i, (s₁.return_ v ns).1.fiber i =
      if i = s.cur then { s.me with cont := .program } else if i = k then f else s.fiber i := by
    intro i
    rw [Sys.return_fiber, hfiber, hcur]
    by_cases hi : i = s.cur
    · subst hi
      rw [if_pos rfl, Function.update_self, Function.update_of_ne (Ne.symm hk)]
      rfl
    · rw [if_neg hi, Function.update_of_ne hi, Function.update_apply]
  have htimed : ∀ n ∈ (s₁.return_ v ns).2, n.timed = false := by
    intro n hn
    rcases List.mem_cons.mp hn with rfl | hn
    · rfl
    · exact hns n hn
  have hpend : ∀ i, pending i ((s₁.return_ v ns).2 ++ t) = pending i t := fun i =>
    pending_append t fun n hn => starts_of_timed (htimed n hn) i
  constructor
  · refine ⟨fun i hi => ?_, ?_, fun i hi hmode => ?_, fun _ => ?_⟩
    · rw [hfin i, Sys.return_vclock, hclock]
      split
      · rename_i hi
        rw [hi]
        exact h.running_ok hm rfl rfl rfl rfl
      · split
        · rename_i hi
          rw [hi]
          exact hf.transfer (hpend k)
        · rename_i hik
          refine (h.fibers i ?_).transfer (hpend i)
          rcases hlt i hi with e | e
          · exact e
          · exact absurd e hik
    · rw [Sys.return_cur, Sys.return_nfiber, hcur]
      exact lt_of_lt_of_le h.cur hn
    · rw [Sys.return_cur, hcur] at hmode
      have hic : i ≠ s.cur := by
        rcases hmode with e | e
        · cases e
        · exact e.2
      rw [hfin i, if_neg hic]
      split
      · exact hst
      · rename_i hik
        refine h.others i ?_ (.inr ⟨hm, hic⟩)
        rcases hlt i hi with e | e
        · exact e
        · exact absurd e hik
    · have hme : (s₁.return_ v ns).1.me = { s.me with cont := .program } := by
        show (s₁.return_ v ns).1.fiber s₁.cur = _
        rw [hfin, hcur, if_pos rfl]
      rw [hme]
      exact h.running hm
  · refine ⟨.of_quiet ?_ ?_, hclock.ge, fun hne => absurd hclock hne, fun i hi hd => ?_,
      nofun, fun e => absurd e.1 hl⟩
    · intro n hn
      exact not_waited_of_timed (htimed n hn)
    · intro e
      rw [hw] at e
      cases e
    · have hic : i ≠ s.cur := by
        rintro rfl
        exact h.me_not_done hm hd
      rw [hfin i, if_neg hic, Sys.return_cur, hcur]
      refine ⟨?_, fun _ => hic.symm⟩
      split
      · rename_i hik
        subst hik
        exact hdone hi hd
      · exact hd

theorem outcome_step {t : List Note} {s : Sys} {l : Label} {r : Sys × List Note} (h : Inv t s)
    (hm : s.mode = .program) (hl : l ≠ .turn) (hw : l.waits = false) (ho : Outcome s r) :
    Inv (r.2 ++ t) r.1 ∧ WaitStep t s l r.2 r.1 := by
  have hnw : l.waits = true → ∀ s' : Sys, s'.objs = s.objs := by
    intro e
    rw [hw] at e
    cases e
  cases ho with
  | returned same hns =>
      exact returned_step h hm hl same (fun n hn => Note.timed_of_plain (hns n hn)) fun e => hnw e _
  | stored a b =>
      have hfiber : (s.pokeByte a b).fiber = Function.update s.fiber s.cur s.me :=
        (Function.update_eq_self ..).symm
      refine ⟨h.update hm hfiber rfl rfl rfl nofun (h.running_ok hm rfl rfl rfl rfl)
        (fun _ => h.running hm) ?_, .of_update h hm hl hfiber rfl rfl ?_ (.of_quiet
        nofun fun e => hnw e _)⟩
      all_goals
        show s.mode = _ → _
        rw [hm]
        exact nofun
  | created st hst fiber nfiber cur vclock =>
      refine other_step h hm hl hw (Nat.ne_of_gt h.cur) fiber cur (by omega) ?_ vclock ?_ ?_ ?_
        nofun
      · intro i hi
        omega
      · refine ⟨rfl, rfl, rfl, fun _ => rfl, fun hs => ?_⟩
        show st = .ready
        rcases hs with e | e
        · rcases hst with e' | e' <;> exact absurd (e.symm.trans e') (by decide)
        · exact e
      · rcases hst with e | e <;> rw [e] <;> exact ⟨nofun, nofun⟩
      · intro hk
        omega
  | started hi hst =>
      rename_i i v
      have hok := h.fibers i hi
      have hic : i ≠ s.cur := by
        rintro rfl
        rcases h.running hm with e | e <;> exact absurd (e.symm.trans hst) (by decide)
      refine other_step h hm hl hw hic rfl rfl le_rfl (fun j hj => .inl hj) rfl ?_ ⟨nofun, nofun⟩ ?_
        nofun
      · refine ⟨hok.waitCs, hok.waitSrw, hok.waitCv, nofun, fun _ => ?_⟩
        unfold ParkedOk
        rw [show ({ s.fiber i with state := .ready } : Fiber).cont = .program from
          hok.suspended hst]
      · intro _ hd
        exact absurd (hst.symm.trans hd) (by decide)
  | killed hi hne =>
      exact other_step h hm hl hw hne rfl rfl le_rfl (fun j hj => .inl hj) rfl
        ((h.fibers _ hi).of_state rfl rfl rfl (.inr (.inr rfl))) ⟨nofun, nofun⟩ (fun _ _ => rfl)
        (by simp [Note.timed])
  | ended f code hf _ =>
      have hfiber : ((s.setMe f).finish code).fiber =
          Function.update s.fiber s.cur { f with state := .done, exitCode := code } := by
        show Function.update (Function.update s.fiber s.cur f) s.cur _ = _
        rw [Function.update_idem, Sys.setMe_me]
      refine ⟨h.update hm hfiber rfl rfl rfl (by simp [Note.starts]) ?_ nofun
        fun _ => ⟨nofun, nofun⟩,
        .of_update h hm hl hfiber rfl rfl nofun (.of_quiet (by simp) fun e => hnw e _)⟩
      exact (h.fibers s.cur h.cur).of_state hf.1 hf.2.1 hf.2.2 (.inr (.inr rfl))
  | exited =>
      have hfiber : s.fiber = Function.update s.fiber s.cur s.me :=
        (Function.update_eq_self ..).symm
      exact ⟨h.update hm hfiber rfl rfl rfl nofun (h.running_ok hm rfl rfl rfl rfl) nofun nofun,
        .of_update h hm hl hfiber rfl rfl nofun (.of_quiet nofun fun e => hnw e _)⟩

theorem sleep_step {t : List Note} {s : Sys} (h : Inv t s) (hm : s.mode = .program) (ms : ℕ)
    (hin : s.vclock + ms < Sys.noDeadline) :
    Inv ((s.sleep ms).2 ++ t) (s.sleep ms).1 ∧
      WaitStep t s (.call (.sleep ms)) (s.sleep ms).2 (s.sleep ms).1 := by
  have hok := h.fibers s.cur h.cur
  unfold Sys.sleep
  split
  · exact returned_step h hm nofun (.refl s) nofun nofun
  · split
    · refine ⟨h.update hm rfl rfl rfl rfl nofun ?_ nofun fun _ => ⟨nofun, nofun⟩,
        .of_update h hm nofun rfl rfl rfl nofun (.of_quiet nofun nofun)⟩
      exact ⟨hok.waitCs, hok.waitSrw, hok.waitCv, nofun, fun _ => rfl⟩
    · have hnote : ∀ n ∈ [Note.sleep s.cur ms s.vclock], ∀ i r, n ≠ .waited i r := by simp
      have hfiber : ((s.setMe { s.me with
          waitH := [], waitCs := 0, hasTimeout := true,
          wakeTime := (s.vclock + ms) % 2 ^ 64, timedOut := false }).toSched .blocked .sleep).fiber =
          Function.update s.fiber s.cur { s.me with
            waitH := [], waitCs := 0, hasTimeout := true,
            wakeTime := (s.vclock + ms) % 2 ^ 64, timedOut := false,
            state := .blocked, lastError := s.lastError, cont := .sleep } := by
        rw [Sys.toSched_fiber, Sys.setMe_me, Sys.setMe_fiber]
        exact Function.update_idem ..
      refine ⟨h.update hm hfiber rfl rfl rfl ?_ ?_ nofun fun _ => ⟨nofun, nofun⟩,
        .of_update h hm nofun hfiber rfl rfl nofun (.of_quiet hnote nofun)⟩
      · intro i hi n hn
        rw [List.mem_singleton.mp hn]
        simpa [Note.starts] using hi.symm
      · refine ⟨rfl, hok.waitSrw, hok.waitCv, nofun, fun _ => ?_⟩
        show _ = [] ∧ ∃ x, _
        refine ⟨rfl, s.vclock + ms, if_pos rfl, rfl, fun x hx => ?_, nofun⟩
        cases hx
        show (s.vclock + ms) % 2 ^ 64 = s.vclock + ms ∧ _
        unfold Sys.noDeadline at hin ⊢
        omega

theorem wait_fields (s : Sys) (src : Handles) (all : Bool) (ms : ℕ) :
    (∃ f, (s.wait src all ms).1.fiber = Function.update s.fiber s.cur f) ∧
      (s.wait src all ms).1.cur = s.cur ∧ (s.wait src all ms).1.vclock = s.vclock ∧
      (s.wait src all ms).1.mode ≠ .deadlock := by
  rw [wait_eq]
  split
  · refine ⟨⟨{ (s.asking src all).me with waitH := [], cont := .program }, ?_⟩, rfl, rfl, nofun⟩
    rw [waitTake_fiber]
    exact Function.update_idem ..
  · split
    · refine ⟨⟨{ (s.asking src all).me with waitH := [], cont := .program }, ?_⟩, rfl, rfl, nofun⟩
      rw [waitTimedOut_fiber]
      exact Function.update_idem ..
    · refine ⟨⟨{ ((s.asking src all).timing ms).me with
        state := .blocked, lastError := s.lastError, cont := .wait src all }, ?_⟩, rfl, rfl, nofun⟩
      rw [Sys.toSched_fiber]
      show Function.update (Function.update (Function.update s.fiber s.cur _) s.cur _) s.cur _ = _
      rw [Function.update_idem, Function.update_idem]
      rfl

theorem wait_step {t : List Note} {s : Sys} {l : Label} (h : Inv t s) (hm : s.mode = .program)
    (hl : l ≠ .turn) (src : Handles) (all : Bool) (ms : ℕ) (hne : s.handles src ≠ [])
    (hlen : (s.handles src).length ≤ 64) (hin : InTime s ms)
    (hsem : s.satisfied s.cur (s.handles src) all = true → all = true →
      SemsSuffice s.objs (s.handles src)) :
    Inv ((s.wait src all ms).2 ++ t) (s.wait src all ms).1 ∧
      WaitStep t s l (s.wait src all ms).2 (s.wait src all ms).1 := by
  obtain ⟨⟨f, hf⟩, hcur, hclock, hmode⟩ := wait_fields s src all ms
  exact ⟨wait_inv h hm src all ms hne hlen hin,
    .of_update h hm hl hf hcur hclock hmode (wait_exact src all ms hne hlen hsem)⟩

theorem semsSuffice_single {s : Sys} {i a : ℕ} (h : s.handleSignaledFor a i = true) :
    SemsSuffice s.objs [a] := by
  intro b hb k hk
  rw [List.mem_singleton.mp hb] at hk
  have hk' : s.objs.semIdx a = some k := hk
  have := sem_pos_of_signaled h hk'
  simp only [List.countP_cons, List.countP_nil, hk', decide_true, if_true]
  omega

theorem call_step {t : List Note} {s : Sys} {c : Call} (h : Inv t s) (hm : s.mode = .program)
    (hc : WaitsFine t s (.call c)) :
    Inv ((s.call c).2 ++ t) (s.call c).1 ∧
      WaitStep t s (.call c) (s.call c).2 (s.call c).1 := by
  cases c with
  | waitForSingleObject a ms =>
      unfold Sys.call Sys.waitForSingleObject
      dsimp only
      split
      · refine wait_step (l := .call (.waitForSingleObject a ms)) h hm nofun (.own a) true ms nofun (by simp [Sys.handles]) hc ?_
        intro hsat _
        exact semsSuffice_single (List.all_eq_true.mp hsat a List.mem_cons_self)
      · exact returned_step h hm nofun (.refl s) nofun fun _ => rfl
  | waitForMultipleObjects n ph all ms =>
      obtain ⟨hin, hn, hsafe⟩ := hc
      unfold Sys.call Sys.waitForMultipleObjects
      dsimp only
      split
      · exact returned_step h hm nofun (.refl s) nofun fun _ => rfl
      · rename_i hpos
        split
        · have hlen : (s.handles (.array ph n)).length = n := by
            simp [Sys.handles]
          refine wait_step (l := .call (.waitForMultipleObjects n ph all ms)) h hm nofun
            (.array ph n) all ms ?_ (by omega) hin fun hsat => (hsafe hsat).2
          intro he
          rw [he] at hlen
          exact hpos (.inr hlen.symm)
        · exact returned_step h hm nofun (.refl s) nofun fun _ => rfl
  | sleep ms => exact sleep_step h hm ms hc
  | store _ _ => exact outcome_step h hm nofun rfl (call_outcome s rfl rfl)
  | setLastError _ => exact outcome_step h hm nofun rfl (call_outcome s rfl rfl)
  | returnThread _ => exact outcome_step h hm nofun rfl (call_outcome s rfl rfl)
  | _ => exact outcome_step h hm nofun rfl (call_outcome s hc rfl)

/-! ### A turn of the scheduler -/

theorem wakeRunnable_inv {t : List Note} {s : Sys} (h : Inv t s) (hm : s.mode = .scheduler) :
    Inv t s.wakeRunnable where
  fibers i hlt := by
    have hi := h.fibers i hlt
    rw [wakeRunnable_fiber, wakeRunnable_vclock]
    split
    · rename_i hw
      have hp := hi.parked (.inl hw.2.1)
      refine ⟨hi.waitCs, hi.waitSrw, hi.waitCv, nofun, fun _ => ?_⟩
      exact hp.map rfl rfl rfl (fun _ _ => rfl) fun d hdue =>
        ⟨hdue.hasTimeout, hdue.wakeTime, nofun⟩
    · exact hi
  cur := h.cur
  others i hi _ := by
    rw [wakeRunnable_fiber]
    split
    · exact ⟨nofun, nofun⟩
    · exact h.others i hi (.inl hm)
  running hp := by
    have hp' : s.mode = .program := hp
    rw [hm] at hp'
    cases hp'

theorem switchTo_inv {t : List Note} {s : Sys} (h : Inv t s) (hm : s.mode = .scheduler) {i : ℕ}
    (hi : i < s.nfiber) : Inv t (s.switchTo i) where
  fibers k hlt := by
    show FiberOk t s.vclock k (Function.update s.fiber i _ k)
    by_cases hk : k = i
    · subst hk
      rw [Function.update_self]
      exact (h.fibers k hlt).of_state rfl rfl rfl (.inr (.inl rfl))
    · rw [Function.update_of_ne hk]
      exact h.fibers k hlt
  cur := hi
  others k hk hmode := by
    have hki : k ≠ i := by
      rcases hmode with e | e
      · cases e
      · exact e.2
    show (Function.update s.fiber i _ k).state ≠ _ ∧ (Function.update s.fiber i _ k).state ≠ _
    rw [Function.update_of_ne hki]
    exact h.others k hk (.inl hm)
  running _ := by
    refine .inr ?_
    show (Function.update s.fiber i _ i).state = _
    rw [Function.update_self]

theorem runnable_satisfied {t : List Note} {s : Sys} (h : Inv t s) {i : ℕ} (hi : i < s.nfiber)
    (hb : (s.fiber i).state = .blocked) {b : Block} (hp : pending i t = some b) :
    s.fiberRunnable i = s.satisfied i b.hs b.all := by
  have hok := h.fibers i hi
  have hpk := hok.parked (.inl hb)
  unfold Sys.fiberRunnable
  simp only [hok.waitSrw, hok.waitCv, hok.waitCs, ne_eq, not_true, if_false]
  unfold ParkedOk at hpk
  cases hc : (s.fiber i).cont with
  | program =>
      rw [hc] at hpk
      exact absurd (hb.symm.trans hpk) (by decide)
  | wait src all =>
      rw [hc] at hpk
      obtain ⟨hne, -, hall, d, hpend, -⟩ := hpk
      rw [hpend] at hp
      cases hp
      rw [if_neg hne, waitOk_eq_satisfied s hne, hall]
  | sleep =>
      rw [hc] at hpk
      obtain ⟨hnil, x, hpend, -⟩ := hpk
      rw [hpend] at hp
      cases hp
      exact if_pos hnil
  | _ =>
      rw [hc] at hpk
      exact hpk.elim

theorem blocked_pending {t : List Note} {s : Sys} (h : Inv t s) {i : ℕ} (hi : i < s.nfiber)
    (hb : (s.fiber i).state = .blocked) :
    ∃ b, pending i t = some b ∧ Due s.vclock (s.fiber i) b.deadline := by
  have hpk := (h.fibers i hi).parked (.inl hb)
  unfold ParkedOk at hpk
  cases hc : (s.fiber i).cont with
  | program =>
      rw [hc] at hpk
      exact absurd (hb.symm.trans hpk) (by decide)
  | wait src all =>
      rw [hc] at hpk
      obtain ⟨-, -, -, d, hpend, hdue⟩ := hpk
      exact ⟨_, hpend, hdue⟩
  | sleep =>
      rw [hc] at hpk
      obtain ⟨-, x, hpend, hdue⟩ := hpk
      exact ⟨_, hpend, hdue⟩
  | _ =>
      rw [hc] at hpk
      exact hpk.elim

theorem not_deadlocked_of_ready {t : List Note} {s : Sys} (h : Inv t s) {i : ℕ}
    (hi : i < s.nfiber) (hr : (s.wakeRunnable.fiber i).state = .ready) : ¬ Deadlocked t s := by
  rintro ⟨-, hall⟩
  have hlive : s.live i := by
    rw [wakeRunnable_fiber] at hr
    split at hr
    · rename_i hw
      refine ⟨hi, ?_, ?_⟩ <;> rw [hw.2.1] <;> exact nofun
    · refine ⟨hi, ?_, ?_⟩ <;> rw [hr] <;> exact nofun
  obtain ⟨hb, b, hp, -, hno⟩ := hall i hlive
  rw [wakeRunnable_fiber] at hr
  split at hr
  · rename_i hw
    have := hw.2.2
    rw [runnable_satisfied h hi hb hp, hno] at this
    cases this
  · exact absurd (hb.symm.trans hr) (by decide)

/-- The scheduler goes on with the fiber `i`, in `s₂`. -/
structure Picked (t : List Note) (s s₂ : Sys) (i : ℕ) : Prop where
  inv : Inv t s
  mode : s.mode = .scheduler
  lt : i < s.nfiber
  ready : (s.wakeRunnable.fiber i).state = .ready
  eq : s₂ = s.wakeRunnable.switchTo i

namespace Picked

variable {t ns : List Note} {s s₂ s' : Sys} {i : ℕ} {f : Fiber} (h : Picked t s s₂ i)

include h

theorem inv₂ : Inv t s₂ := h.eq ▸ switchTo_inv (wakeRunnable_inv h.inv h.mode) h.mode h.lt

theorem mode₂ : s₂.mode = .program := h.eq ▸ rfl

theorem cur : s₂.cur = i := h.eq ▸ rfl

theorem vclock : s₂.vclock = s.vclock := h.eq ▸ rfl

theorem me : s₂.me = { s.wakeRunnable.fiber i with state := .running } := h.eq ▸ switchTo_me ..

theorem alike : s.Alike s₂ := h.eq ▸ (wakeRunnable_alike s).trans (switchTo_alike h.ready)

theorem parked : ParkedOk t s.vclock i (s.wakeRunnable.fiber i) :=
  ((wakeRunnable_inv h.inv h.mode).fibers i h.lt).parked (.inr h.ready)

theorem waitStep (hfiber : s'.fiber = Function.update s₂.fiber s₂.cur f) (hcur : s'.cur = s₂.cur)
    (hclock : s'.vclock = s₂.vclock) (hmode : s'.mode ≠ .deadlock)
    (he : WaitExact t s .turn ns s') : WaitStep t s .turn ns s' where
  toWaitExact := he
  clock := (hclock.trans h.vclock).ge
  clockMoves hne := absurd (hclock.trans h.vclock) hne
  ended k hk hd := by
    have hw : s.wakeRunnable.fiber k = s.fiber k := by
      rw [wakeRunnable_fiber, if_neg]
      rintro ⟨-, hb, -⟩
      exact absurd (hd.symm.trans hb) (by decide)
    have hki : k ≠ i := by
      rintro rfl
      have hr := h.ready
      rw [hw, hd] at hr
      cases hr
    rw [hfiber, hcur, h.cur, Function.update_of_ne hki, h.eq]
    refine ⟨?_, fun _ => hki.symm⟩
    show (Function.update s.wakeRunnable.fiber i _ k).state = _
    rw [Function.update_of_ne hki, hw, hd]
  deadlock := ⟨fun e => absurd e hmode,
    fun hd => absurd hd.2 (not_deadlocked_of_ready h.inv h.lt h.ready)⟩

theorem blocked_again {c : Cont} (hc : (s.fiber i).cont = c) (hp : c ≠ .program)
    (hto : ¬s₂.me.timedOut = true) : Inv t (s₂.toSched .blocked c) ∧
      WaitStep t s .turn [] (s₂.toSched .blocked c) := by
  have hfin : (s₂.toSched .blocked c).fiber = Function.update s₂.fiber s₂.cur
      { s₂.me with state := .blocked, lastError := s₂.lastError, cont := c } :=
    Sys.toSched_fiber ..
  have hcont := (wakeRunnable_cont s i).1.trans hc
  constructor
  · show Inv ([] ++ t) _
    refine h.inv₂.update h.mode₂ hfin rfl rfl rfl nofun ?_ nofun fun _ => ⟨nofun, nofun⟩
    have hok₂ := h.inv₂.fibers s₂.cur h.inv₂.cur
    refine ⟨hok₂.waitCs, hok₂.waitSrw, hok₂.waitCv, nofun, fun _ => ?_⟩
    rw [h.me, h.cur, h.vclock]
    rw [h.me] at hto
    exact h.parked.map hcont.symm rfl rfl (fun e => absurd (hcont.symm.trans e) hp)
      fun d hdue => ⟨hdue.hasTimeout, hdue.wakeTime, fun e => absurd e hto⟩
  · exact h.waitStep hfin rfl rfl nofun (.of_quiet nofun fun _ => h.alike.objs)

end Picked

theorem waitWoken_step {t : List Note} {s s₂ : Sys} {i : ℕ} {src : Handles} {all : Bool}
    (h : Picked t s s₂ i) (hc : (s.fiber i).cont = .wait src all)
    (hsafe : SafeTake s i (s.fiber i).waitH (s.handles src) all) :
    Inv ((s₂.waitWoken src all).2 ++ t) (s₂.waitWoken src all).1 ∧
      WaitStep t s .turn (s₂.waitWoken src all).2 (s₂.waitWoken src all).1 := by
  have hcw := wakeRunnable_cont s i
  have hpk := h.parked
  unfold ParkedOk at hpk
  rw [hcw.1, hc] at hpk
  obtain ⟨hne, hlen, hall, d, hpend, hdue⟩ := hpk
  have hsrc : s₂.handles src = s.handles src := by
    rw [h.eq]
    rfl
  -- the timer is stopped
  obtain ⟨s₃, hs₃⟩ : ∃ s₃, s₃ = s₂.setMe { s₂.me with hasTimeout := false } := ⟨_, rfl⟩
  have hf₃ : s₃.fiber = Function.update s₂.fiber s₂.cur { s₂.me with hasTimeout := false } := by
    rw [hs₃]
    rfl
  have hcur₃ : s₃.cur = s₂.cur := by rw [hs₃]; rfl
  have hme₃ : s₃.me = { s₂.me with hasTimeout := false } := by
    rw [hs₃, Sys.setMe_me]
  have a₃ : s.Alike s₃ := by
    refine h.alike.trans ?_
    rw [hs₃]
    exact .of_update rfl rfl rfl Iff.rfl
  have hend : ∀ f, Function.update s₃.fiber s₃.cur f = Function.update s₂.fiber s₂.cur f := by
    intro f
    rw [hf₃, hcur₃, Function.update_idem]
  have hok : s₂.waitOk s₂.cur = s.satisfied i (s.fiber i).waitH all := by
    have hw : (s₂.fiber s₂.cur).waitH = (s.fiber i).waitH := by
      show s₂.me.waitH = _
      rw [h.me]
      exact hcw.2.1
    have ha : (s₂.fiber s₂.cur).waitAll = all := by
      show s₂.me.waitAll = _
      rw [h.me]
      exact hall
    rw [waitOk_eq_satisfied s₂ (by rw [hw, ← hcw.2.1]; exact hne), hw, ha, h.cur,
      h.alike.satisfied]
  have hpend' : pending s₃.cur ([] ++ t) = some ⟨(s.fiber i).waitH, all, d⟩ := by
    rw [hcur₃, h.cur, ← hcw.2.1]
    exact hpend
  have hunf : s₂.waitWoken src all =
      if s₂.waitOk s₂.cur then s₃.waitTake ((s₃.handles src).take 64) all
      else if s₂.me.timedOut then s₃.waitTimedOut
      else (s₂.toSched .blocked (.wait src all), []) := by
    rw [hs₃]
    rfl
  rw [hunf, hok]
  split
  · rename_i hsat
    obtain ⟨hnow, hsem⟩ := hsafe hsat
    have hread : (s₃.handles src).take 64 = (s.fiber i).waitH := by
      have : s₃.handles src = s₂.handles src := by rw [hs₃]; rfl
      rw [this, hsrc, hnow, ← hcw.2.1]
      exact List.take_of_length_le hlen
    have hfin : (s₃.waitTake ((s₃.handles src).take 64) all).1.fiber =
        Function.update s₂.fiber s₂.cur { s₃.me with waitH := [], cont := .program } := by
      rw [waitTake_fiber, hend]
    constructor
    · refine h.inv₂.update h.mode₂ hfin (by rw [waitTake_nfiber, hs₃]; rfl)
        (by rw [waitTake_cur, hcur₃]) (by rw [waitTake_vclock, hs₃]; rfl) ?_ ?_ ?_ nofun
      · intro k _ n hn
        exact waitTake_notes_start _ _ _ hn k
      · refine h.inv₂.running_ok h.mode₂ ?_ ?_ ?_ ?_ <;> rw [hme₃]
      · intro _
        rw [hme₃]
        exact h.inv₂.running h.mode₂
    · refine h.waitStep hfin (by rw [waitTake_cur, hcur₃]) (by rw [waitTake_vclock, hs₃]; rfl)
        nofun ?_
      rw [hread, ← List.append_nil (s₃.waitTake _ _).2]
      refine .of_take a₃ ?_ nofun hpend' ?_ hsem
      · rw [← hcw.2.1]
        exact hlen
      · rw [hcur₃, h.cur]
        exact hsat
  · rename_i hsat
    split
    · rename_i hto
      have hd : d = some s.vclock := by
        rw [h.me] at hto
        exact (hdue.timedOut hto).2
      have hfin : s₃.waitTimedOut.1.fiber =
          Function.update s₂.fiber s₂.cur { s₃.me with waitH := [], cont := .program } := by
        rw [waitTimedOut_fiber, hend]
      constructor
      · refine h.inv₂.update h.mode₂ hfin (by rw [waitTimedOut_nfiber, hs₃]; rfl)
          (by rw [waitTimedOut_cur, hcur₃]) (by rw [waitTimedOut_vclock, hs₃]; rfl) ?_ ?_ ?_ nofun
        · intro k _ n hn
          rw [waitTimedOut_notes] at hn
          simp only [List.mem_cons, List.not_mem_nil, or_false] at hn
          rcases hn with rfl | rfl <;> rfl
        · refine h.inv₂.running_ok h.mode₂ ?_ ?_ ?_ ?_ <;> rw [hme₃]
        · intro _
          rw [hme₃]
          exact h.inv₂.running h.mode₂
      · refine h.waitStep hfin (by rw [waitTimedOut_cur, hcur₃])
          (by rw [waitTimedOut_vclock, hs₃]; rfl) nofun ?_
        rw [← List.append_nil s₃.waitTimedOut.2]
        rw [hd] at hpend'
        refine .of_timedOut a₃ nofun hpend' ?_
        rw [hcur₃, h.cur]
        simpa using hsat
    · rename_i hto
      exact h.blocked_again hc nofun hto

theorem sleepWoken_step {t : List Note} {s s₂ : Sys} {i : ℕ} (h : Picked t s s₂ i)
    (hc : (s.fiber i).cont = .sleep) : Inv (s₂.sleepWoken.2 ++ t) s₂.sleepWoken.1 ∧
      WaitStep t s .turn s₂.sleepWoken.2 s₂.sleepWoken.1 := by
  unfold Sys.sleepWoken
  split
  · have hfin : ((s₂.setMe { s₂.me with hasTimeout := false }).return_ 0
        [.slept s₂.cur]).1.fiber = Function.update s₂.fiber s₂.cur
          { s₂.me with hasTimeout := false, cont := .program } := by
      rw [Sys.return_fiber, Sys.setMe_cur, Sys.setMe_fiber, Function.update_self,
        Function.update_idem]
    constructor
    · refine h.inv₂.update h.mode₂ hfin rfl rfl rfl ?_ (h.inv₂.running_ok h.mode₂ rfl rfl rfl rfl)
        (fun _ => h.inv₂.running h.mode₂) nofun
      intro k _ n hn
      rw [Sys.return_notes] at hn
      simp only [List.mem_cons, List.not_mem_nil, or_false] at hn
      rcases hn with rfl | rfl <;> rfl
    · refine h.waitStep hfin rfl rfl nofun (.of_quiet ?_ fun _ => h.alike.objs)
      intro n hn
      rw [Sys.return_notes] at hn
      simp only [List.mem_cons, List.not_mem_nil, or_false] at hn
      rcases hn with rfl | rfl <;> exact fun _ _ => nofun
  · rename_i hto
    exact h.blocked_again hc nofun hto

theorem resume_step {t : List Note} {s s₂ : Sys} {i : ℕ} (h : Picked t s s₂ i)
    (hl : WaitsFine t s .turn) (hp : s.wakeRunnable.pick = some i) :
    Inv (s₂.resume.2 ++ t) s₂.resume.1 ∧ WaitStep t s .turn s₂.resume.2 s₂.resume.1 := by
  have hcont : s₂.me.cont = (s.fiber i).cont := by
    rw [h.me]
    exact (wakeRunnable_cont s i).1
  unfold Sys.resume
  rw [hcont]
  have hpk := h.parked
  unfold ParkedOk at hpk
  rw [(wakeRunnable_cont s i).1] at hpk
  cases hc : (s.fiber i).cont with
  | program =>
      refine ⟨h.inv₂, h.waitStep (Function.update_eq_self ..).symm rfl rfl ?_
        (.of_quiet nofun fun _ => h.alike.objs)⟩
      rw [h.mode₂]
      exact nofun
  | wait src all =>
      have hsafe := hl i hp
      unfold SafeResume at hsafe
      rw [hc] at hsafe
      exact waitWoken_step h hc hsafe
  | sleep => exact sleepWoken_step h hc
  | _ =>
      rw [hc] at hpk
      exact hpk.elim

theorem idle_of_pick_none {s : Sys} (hp : s.wakeRunnable.pick = none) {i : ℕ}
    (hi : i < s.nfiber) : s.wakeRunnable.fiber i = s.fiber i ∧ (s.fiber i).state ≠ .ready ∧
      ((s.fiber i).state = .blocked → s.fiberRunnable i = false) := by
  have hne := pick_none hp hi
  rw [wakeRunnable_fiber] at hne ⊢
  split at hne
  · exact absurd rfl hne
  · rename_i hw
    rw [if_neg hw]
    refine ⟨rfl, hne, fun hb => ?_⟩
    cases hrun : s.fiberRunnable i with
    | false => rfl
    | true => exact absurd ⟨hi, hb, hrun⟩ hw

theorem Due.fired {c e : ℕ} {f : Fiber} {d : Option ℕ} (h : Due c f d)
    (ht : f.hasTimeout = true) (hw : f.wakeTime = e) :
    Due e { f with state := .ready, timedOut := true } d := by
  have hsome := h.hasTimeout.symm.trans ht
  rw [Option.isSome_iff_exists] at hsome
  obtain ⟨x, rfl⟩ := hsome
  obtain ⟨hx, -, hlt⟩ := h.wakeTime x rfl
  have hxe : x = e := hx.symm.trans hw
  subst hxe
  refine ⟨h.hasTimeout, fun y hy => ?_, fun _ => ⟨rfl, rfl⟩⟩
  cases hy
  exact ⟨hx, le_rfl, hlt⟩

theorem Due.later {c e : ℕ} {f : Fiber} {d : Option ℕ} (h : Due c f d) (hb : f.state = .blocked)
    (he : f.hasTimeout = true → e ≤ f.wakeTime) : Due e f d := by
  refine ⟨h.hasTimeout, fun x hx => ?_, fun ht => ?_⟩
  · obtain ⟨hw, -, hlt⟩ := h.wakeTime x hx
    have hsome : f.hasTimeout = true := by
      rw [h.hasTimeout, hx]
      rfl
    exact ⟨hw, hw ▸ he hsome, hlt⟩
  · exact absurd (hb.symm.trans (h.timedOut ht).1) (by decide)

theorem fire_inv {t : List Note} {s : Sys} (h : Inv t s) (hm : s.mode = .scheduler)
    (hready : ∀ i < s.nfiber, (s.fiber i).state ≠ .ready) :
    Inv t (s.fire s.earliest) where
  fibers i hlt := by
    have hi := h.fibers i hlt
    show FiberOk t s.earliest i (if _ then _ else s.fiber i)
    split
    · rename_i hf
      have hle := earliest_le s hlt ⟨hf.2.1, hf.2.2.1⟩
      have heq : (s.fiber i).wakeTime = s.earliest := by
        have := hf.2.2.2
        omega
      have hp := hi.parked (.inl hf.2.1)
      refine ⟨hi.waitCs, hi.waitSrw, hi.waitCv, nofun, fun _ => ?_⟩
      exact hp.map rfl rfl rfl (fun _ _ => rfl) fun d hdue => hdue.fired hf.2.2.1 heq
    · rename_i hf
      refine ⟨hi.waitCs, hi.waitSrw, hi.waitCv, hi.suspended, fun hs => ?_⟩
      have hb : (s.fiber i).state = .blocked := by
        rcases hs with e | e
        · exact e
        · exact absurd e (hready i hlt)
      have hp := hi.parked (.inl hb)
      exact hp.map rfl rfl rfl (fun _ => id) fun d hdue =>
        hdue.later hb fun ht => earliest_le s hlt ⟨hb, ht⟩
  cur := h.cur
  others i hi _ := by
    show (if _ then _ else s.fiber i : Fiber).state ≠ _ ∧ (if _ then _ else s.fiber i : Fiber).state ≠ _
    split
    · exact ⟨nofun, nofun⟩
    · exact h.others i hi (.inl hm)
  running hp := by
    have hp' : s.mode = .program := hp
    rw [hm] at hp'
    cases hp'

theorem fire_step {t : List Note} {s : Sys} (h : Inv t s) (hm : s.mode = .scheduler)
    (hp : s.wakeRunnable.pick = none) (he : s.wakeRunnable.earliest ≠ Sys.noDeadline) :
    Inv t (s.wakeRunnable.fire s.wakeRunnable.earliest) ∧
      WaitStep t s .turn [] (s.wakeRunnable.fire s.wakeRunnable.earliest) := by
  have hidle : ∀ i < s.nfiber, _ := fun i hi => idle_of_pick_none hp hi
  obtain ⟨k, hk, hexp, hwake⟩ := earliest_attained _ he
  rw [Sys.expiring, (hidle k hk).1] at hexp
  rw [(hidle k hk).1] at hwake
  obtain ⟨b, hpend, hdue⟩ := blocked_pending h hk hexp.1
  obtain ⟨x, hx⟩ := Option.isSome_iff_exists.mp (hdue.hasTimeout.symm.trans hexp.2)
  have hmode : (s.wakeRunnable.fire s.wakeRunnable.earliest).mode = .scheduler := hm
  refine ⟨fire_inv (wakeRunnable_inv h hm) hm fun i hi => pick_none hp hi,
    .of_quiet nofun fun _ => rfl, ?_, fun _ i hi => (hidle i hi).2, fun i hi hd => ?_,
    fun e => ?_, fun hdead => ?_⟩
  · show s.vclock ≤ s.wakeRunnable.earliest
    obtain ⟨hxw, hle, -⟩ := hdue.wakeTime x hx
    omega
  · refine ⟨?_, fun e => absurd (hmode.symm.trans e) (by decide)⟩
    show (if _ then _ else s.wakeRunnable.fiber i : Fiber).state = .done
    rw [if_neg, (hidle i hi).1, hd]
    rintro ⟨-, hb, -⟩
    rw [(hidle i hi).1, hd] at hb
    cases hb
  · exact absurd (hmode.symm.trans e) (by decide)
  · obtain ⟨-, b', hpend', hnone, -⟩ := hdead.2.2 k
      ⟨hk, by rw [hexp.1]; exact nofun, by rw [hexp.1]; exact nofun⟩
    rw [hpend] at hpend'
    cases hpend'
    rw [hx] at hnone
    cases hnone

theorem stop_step {t : List Note} {s : Sys} (h : Inv t s) (hm : s.mode = .scheduler)
    (hp : s.wakeRunnable.pick = none) (he : s.wakeRunnable.earliest = Sys.noDeadline) :
    Inv t s.wakeRunnable.stop ∧ WaitStep t s .turn [] s.wakeRunnable.stop := by
  have hidle : ∀ i < s.nfiber, _ := fun i hi => idle_of_pick_none hp hi
  have hw := wakeRunnable_inv h hm
  have hmode : s.wakeRunnable.stop.mode ≠ .program ∧ s.wakeRunnable.stop.mode ≠ .scheduler := by
    show (if _ then _ else _ : Mode) ≠ _ ∧ (if _ then _ else _ : Mode) ≠ _
    split <;> exact ⟨nofun, nofun⟩
  -- a blocked fiber has no deadline and its condition does not hold
  have hstuck : ∀ i < s.nfiber, (s.fiber i).state = .blocked →
      ∃ b, pending i t = some b ∧ b.deadline = none ∧ s.satisfied i b.hs b.all = false := by
    intro i hi hb
    obtain ⟨b, hpend, hdue⟩ := blocked_pending h hi hb
    refine ⟨b, hpend, ?_, ?_⟩
    · cases hd : b.deadline with
      | none => rfl
      | some x =>
          obtain ⟨hx, -, hlt⟩ := hdue.wakeTime x hd
          have ht : (s.fiber i).hasTimeout = true := by
            rw [hdue.hasTimeout, hd]
            rfl
          have hle := earliest_le s.wakeRunnable hi
            (by rw [Sys.expiring, (hidle i hi).1]; exact ⟨hb, ht⟩)
          rw [(hidle i hi).1, he] at hle
          omega
    · rw [← runnable_satisfied h hi hb hpend]
      exact (hidle i hi).2.2 hb
  refine ⟨⟨hw.fibers, hw.cur, fun i _ hmm => ?_, fun hmm => absurd hmm hmode.1⟩,
    .of_quiet nofun fun _ => rfl, le_rfl, fun hne => absurd rfl hne, fun i hi hd => ?_,
    fun hd => ⟨rfl, ?_⟩, fun hd => ?_⟩
  · rcases hmm with e | e
    · exact absurd e hmode.2
    · exact absurd e.1 hmode.1
  · refine ⟨?_, fun hmm => absurd hmm hmode.1⟩
    show (s.wakeRunnable.fiber i).state = .done
    rw [(hidle i hi).1, hd]
  · have hany : s.wakeRunnable.anyBlocked = true := by
      by_contra hc
      have : s.wakeRunnable.stop.mode = .exited := if_neg hc
      rw [this] at hd
      cases hd
    obtain ⟨k, hk, hkb⟩ := (anyBlocked_iff _).mp hany
    rw [(hidle k hk).1] at hkb
    refine ⟨⟨k, hk, by rw [hkb]; exact nofun, by rw [hkb]; exact nofun⟩, fun i hi => ?_⟩
    have hb : (s.fiber i).state = .blocked := by
      have ho := h.others i hi.1 (.inl hm)
      have hr := (hidle i hi.1).2.1
      cases hst : (s.fiber i).state with
      | blocked => rfl
      | free => exact absurd hst ho.1
      | running => exact absurd hst ho.2
      | ready => exact absurd hst hr
      | suspended => exact absurd hst hi.2.1
      | done => exact absurd hst hi.2.2
    exact ⟨hb, hstuck i hi.1 hb⟩
  · obtain ⟨-, ⟨k, hk⟩, hall⟩ := hd
    have hany : s.wakeRunnable.anyBlocked = true := by
      rw [anyBlocked_iff]
      exact ⟨k, hk.1, by rw [(hidle k hk.1).1]; exact (hall k hk).1⟩
    exact if_pos hany

theorem turn_step {t : List Note} {s : Sys} (h : Inv t s) (hm : s.mode = .scheduler)
    (hl : WaitsFine t s .turn) : Inv (s.turn.2 ++ t) s.turn.1 ∧
      WaitStep t s .turn s.turn.2 s.turn.1 := by
  cases hp : s.wakeRunnable.pick with
  | some i =>
      rw [turn_of_pick hp]
      obtain ⟨hi, hr⟩ := pick_some hp
      exact resume_step ⟨h, hm, hi, hr, rfl⟩ hl hp
  | none =>
      rw [turn_of_none hp]
      split
      · rename_i he
        exact fire_step h hm hp he
      · rename_i he
        exact stop_step h hm hp (not_not.mp he)

/-! ### Runs -/

theorem step_inv {t ns : List Note} {s s' : Sys} {l : Label} (h : Inv t s)
    (hl : WaitsFine t s l) (hs : s.step l = some (s', ns)) :
    Inv (ns ++ t) s' ∧ WaitStep t s l ns s' := by
  rcases step_cases hs with ⟨c, rfl, hm, hr⟩ | ⟨rfl, hm, hr⟩
  · have hk := call_step h hm hl
    rw [hr] at hk
    exact hk
  · have hk := turn_step h hm hl
    rw [hr] at hk
    exact hk

theorem run_inv {mem : ℕ → ℕ} {t : List Note} {s : Sys} (h : Run WaitsFine mem t s) :
    Inv t s := by
  induction h with
  | start => exact inv_start mem
  | step _ hl hs ih => exact (step_inv ih hl hs).1

/-- In every run whose steps meet `WaitsFine`, every step is exact: successful waits take exactly
what they report, waits time out at their deadline and take nothing, the clock moves only when no
fiber is ready, fibers that have ended do not run, and a deadlock is reported where there is one. -/
theorem waits_exact {mem : ℕ → ℕ} {t ns : List Note} {s s' : Sys} {l : Label}
    (h : Run WaitsFine mem t s) (hl : WaitsFine t s l) (hs : s.step l = some (s', ns)) :
    WaitStep t s l ns s' :=
  (step_inv (run_inv h) hl hs).2

/-! ### Runs that meet the conditions, and one that goes wrong -/

instance (s : Sys) (ms : ℕ) : Decidable (InTime s ms) := by unfold InTime; infer_instance

instance (o : Objs) (hs : List ℕ) : Decidable (SemsSuffice o hs) := by
  unfold SemsSuffice
  infer_instance

instance (s : Sys) (i : ℕ) (hs now : List ℕ) (all : Bool) : Decidable (SafeTake s i hs now all) := by
  unfold SafeTake
  infer_instance

instance (s : Sys) (i : ℕ) : Decidable (SafeResume s i) :=
  match h : (s.fiber i).cont with
  | .wait src all =>
    decidable_of_iff (SafeTake s i (s.fiber i).waitH (s.handles src) all) (by rw [SafeResume, h])
  | .program | .sleep | .enterCs _ | .acquireSrw .. | .cvSleep .. | .cvReacquire .. =>
    .isTrue (by rw [SafeResume, h]; trivial)

instance (t : List Note) (s : Sys) (l : Label) : Decidable (WaitsFine t s l) := by
  unfold WaitsFine
  split <;> infer_instance

def OnWaits (_ : List Note) (_ : Sys) : Label → Prop
  | .call c => c.onLocks = false
  | .turn => True

instance (t : List Note) (s : Sys) (l : Label) : Decidable (OnWaits t s l) := by
  unfold OnWaits
  split <;> infer_instance

/-- Two auto-reset events, a second thread, and a wait of the main thread for the first event,
whose handle is in the array at 0x100; the second thread runs. -/
def waitOnArray : List Label :=
  [.call (.createEvent false false 0), .call (.createEvent false false 0),
    .call (.createThread false 0), .call (.store 0x103 0x71),
    .call (.waitForMultipleObjects 1 0x100 false infinite), .turn]

def signalFirst : List Label := [.call (.setEvent 0x71000000), .call (.returnThread 0)]

def signalled : List Note × Sys :=
  (runLabels WaitsFine ([], .start fun _ => 0) (waitOnArray ++ signalFirst)).get
    (by decide +kernel)

theorem run_signalled : Run WaitsFine (fun _ => 0) signalled.1 signalled.2 :=
  run_of_labels (waitOnArray ++ signalFirst) (Option.some_get _).symm .start

theorem waits_exact_signalled :
    WaitStep signalled.1 signalled.2 .turn signalled.2.turn.2 signalled.2.turn.1 :=
  waits_exact run_signalled (by decide +kernel) (step_turn (by decide +kernel))

/-- The same run, in which the second thread first writes the handle of the other event over
the one in the array. -/
def overwritten : List Note × Sys :=
  (runLabels OnWaits ([], .start fun _ => 0)
    (waitOnArray ++ .call (.store 0x100 1) :: signalFirst)).get (by decide +kernel)

/-- `u32_wait` reads the handles again when the fiber is resumed, and consumes another object. -/
theorem not_waits_exact : ¬ ∀ mem t s l s' ns, Run OnWaits mem t s → OnWaits t s l →
    s.step l = some (s', ns) → WaitStep t s l ns s' := by
  intro h
  have hrun : Run OnWaits (fun _ => 0) overwritten.1 overwritten.2 :=
    run_of_labels (waitOnArray ++ .call (.store 0x100 1) :: signalFirst)
      (Option.some_get _).symm .start
  have hstep := h _ _ _ .turn _ _ hrun trivial (step_turn (by decide +kernel))
  obtain ⟨b, hb, -, htaken⟩ := hstep.success 0 0 (by decide +kernel) (by decide)
  have hpend : pending 0 (overwritten.2.turn.2 ++ overwritten.1) =
      some ⟨[0x71000000], false, none⟩ := by decide +kernel
  rw [hpend] at hb
  cases hb
  obtain ⟨a, ha, -, -, hc⟩ := htaken
  have hkept : (overwritten.2.turn.1.objs.event 0).signaled = true := by decide +kernel
  have ha' : a = 0x71000000 := by simpa using ha.symm
  have hreset := hc.event 0
  rw [if_pos ⟨⟨a, List.mem_singleton_self a, by rw [ha']; decide +kernel⟩, by decide +kernel⟩]
    at hreset
  rw [hreset] at hkept
  cases hkept

end Aret.Threads
