/-
What holds of the fiber table in every run, whatever the fibers call.

Apart from the calls that create, start or end a fiber, a step changes the entry
of the running fiber only, and does not end it (`Local`).  So the table grows at
its end, a fiber is done exactly when a note says that it ended, and a fiber
parked in `u32_wait` has the mode of its call in its entry.
-/
import Aret.FiberRun

namespace Aret.Threads

/-! ### Functions of the running fiber -/

/-- The entry of a fiber parked in `u32_wait` has the mode of the call. -/
def Fiber.Right (f : Fiber) : Prop := ∀ src all, f.cont = .wait src all → f.waitAll = all

/-- From `s` to `s'` only the running fiber's entry changes; it stays right, and alive. -/
structure Sys.Local (s s' : Sys) : Prop where
  nfiber : s'.nfiber = s.nfiber
  cur : s'.cur = s.cur
  others : ∀ i ≠ s.cur, s'.fiber i = s.fiber i
  alive : s.me.state ≠ .done → s'.me.state ≠ .done
  right : s.me.Right → s'.me.Right

/-- A result whose state is local to `s`, and which ends no fiber; if the program goes on, it is
no longer in a call. -/
structure Local (s : Sys) (r : Sys × List Note) : Prop extends s.Local r.1 where
  notes : ∀ i, .ended i ∉ r.2
  place : r.1.mode = .program → r.1.me.cont = .program

namespace Sys.Local

variable {s s₁ s₂ : Sys}

theorem refl (s : Sys) : s.Local s := ⟨rfl, rfl, fun _ _ => rfl, id, id⟩

theorem trans (h₁ : s.Local s₁) (h₂ : s₁.Local s₂) : s.Local s₂ where
  nfiber := h₂.nfiber.trans h₁.nfiber
  cur := h₂.cur.trans h₁.cur
  others i hi := (h₂.others i (by rw [h₁.cur]; exact hi)).trans (h₁.others i hi)
  alive h := h₂.alive (h₁.alive h)
  right h := h₂.right (h₁.right h)

theorem setMe {f : Fiber} (hs : f.state = s.me.state) (hc : f.cont = s.me.cont)
    (hw : f.waitAll = s.me.waitAll) :
    s.Local (s.setMe f) where
  nfiber := rfl
  cur := rfl
  others i hi := Function.update_of_ne hi ..
  alive h := by rw [Sys.setMe_me, hs]; exact h
  right h := by
    rw [Sys.setMe_me]
    intro src all hf
    rw [hw]
    exact h src all (hc.symm.trans hf)

theorem setObjs (s : Sys) (o : Objs) : s.Local { s with objs := o } :=
  ⟨rfl, rfl, fun _ _ => rfl, id, id⟩

theorem toSched {st : FState} {c : Cont} (hst : st ≠ .done)
    (hc : ∀ src all, c = .wait src all → s.me.waitAll = all) :
    s.Local (s.toSched st c) where
  nfiber := rfl
  cur := rfl
  others i hi := Function.update_of_ne hi ..
  alive _ := by
    have hme : (s.toSched st c).me =
        { s.me with state := st, lastError := s.lastError, cont := c } := Function.update_self ..
    rw [hme]
    exact hst
  right _ := by
    have hme : (s.toSched st c).me =
        { s.me with state := st, lastError := s.lastError, cont := c } := Function.update_self ..
    rw [hme]
    exact hc

theorem result {r : Sys × List Note} (h₁ : s.Local s₁) (h₂ : Threads.Local s₁ r) :
    Threads.Local s r :=
  ⟨h₁.trans h₂.toLocal, h₂.notes, h₂.place⟩

end Sys.Local

section
variable (s : Sys)

theorem local_return (v : ℕ) {ns : List Note} (hns : ∀ i, .ended i ∉ ns) :
    Local s (s.return_ v ns) where
  nfiber := rfl
  cur := rfl
  others i hi := Function.update_of_ne hi ..
  alive h := by
    have hme : (s.return_ v ns).1.me = { s.me with cont := .program } := Function.update_self ..
    rw [hme]
    exact h
  right _ := by
    have hme : (s.return_ v ns).1.me = { s.me with cont := .program } := Function.update_self ..
    rw [hme]
    exact nofun
  notes i h := by
    rcases List.mem_cons.mp h with h | h
    · cases h
    · exact hns i h
  place _ := by
    have hme : (s.return_ v ns).1.me = { s.me with cont := .program } := Function.update_self ..
    rw [hme]

theorem local_abort : Local s s.abort :=
  ⟨⟨rfl, rfl, fun _ _ => rfl, id, id⟩, nofun, nofun⟩

theorem local_park {f : Fiber} {c : Cont} {ns : List Note} (hne : ∀ src all, c ≠ .wait src all)
    (hns : ∀ i, .ended i ∉ ns) (hs : f.state = s.me.state)
    (hc : f.cont = s.me.cont) (hw : f.waitAll = s.me.waitAll) :
    Local s ((s.setMe f).toSched .blocked c, ns) :=
  ⟨(Sys.Local.setMe hs hc hw).trans
    (.toSched (by nofun) fun src all e => absurd e (hne src all)), hns, nofun⟩

theorem Local.append {r : Sys × List Note} (h : Local s r) {ns : List Note}
    (hns : ∀ i, .ended i ∉ ns) : Local s (r.1, r.2 ++ ns) :=
  ⟨h.toLocal, fun i hi => by
    rcases List.mem_append.mp hi with e | e
    · exact h.notes i e
    · exact hns i e, h.place⟩

/-! #### Waits and sleeps -/

theorem local_waitTake (hs : List ℕ) (all : Bool) : Local s (s.waitTake hs all) := by
  have h : s.Local { s.setMe { s.me with waitH := [] } with
      objs := (s.waitTake hs all).1.objs } :=
    (Sys.Local.setMe (by rfl) (by rfl) (by rfl)).trans (.setObjs _ _)
  refine h.result (local_return _ _ ?_)
  intro i hi
  rcases List.mem_cons.mp hi with e | e
  · cases e
  · rw [List.mem_filterMap] at e
    obtain ⟨a, -, ha⟩ := e
    have := acquireNote_plain ha
    cases this

theorem local_waitTimedOut : Local s s.waitTimedOut :=
  (Sys.Local.setMe (by rfl) (by rfl) (by rfl)).result (local_return _ _ (by simp))

theorem local_wait (src : Handles) (all : Bool) (ms : ℕ) (hc : s.me.cont = .program) :
    Local s (s.wait src all ms) := by
  have hask : s.Local (s.asking src all) := by
    refine ⟨rfl, rfl, fun i hi => Function.update_of_ne hi .., fun h => ?_, fun _ => ?_⟩
    · rw [Sys.asking, Sys.setMe_me]
      exact h
    · rw [Sys.asking, Sys.setMe_me]
      intro src' all' e
      have : s.me.cont = .wait src' all' := e
      rw [hc] at this
      cases this
  rw [wait_eq]
  split
  · exact hask.result ((local_waitTake _ _ _).append _ (by simp))
  · split
    · exact hask.result ((local_waitTimedOut _).append _ (by simp))
    · refine ⟨(hask.trans (.setMe (by rfl) (by rfl) (by rfl))).trans (.toSched (by nofun) ?_),
        by simp, nofun⟩
      intro src' all' e
      cases e
      simp [Sys.asking]

theorem local_waitWoken {src : Handles} {all : Bool} (hc : s.me.cont = .wait src all) :
    Local s (s.waitWoken src all) := by
  unfold Sys.waitWoken
  have hstop : s.Local (s.setMe { s.me with hasTimeout := false }) :=
    .setMe (by rfl) (by rfl) (by rfl)
  dsimp only
  split
  · exact hstop.result (local_waitTake _ _ _)
  · split
    · exact hstop.result (local_waitTimedOut _)
    · refine ⟨⟨rfl, rfl, fun i hi => Function.update_of_ne hi .., fun _ => ?_, fun hr => ?_⟩, nofun,
        nofun⟩
      · have hme : (s.toSched .blocked (.wait src all)).me = { s.me with
            state := .blocked, lastError := s.lastError, cont := .wait src all } :=
          Function.update_self ..
        rw [hme]
        exact nofun
      · have hme : (s.toSched .blocked (.wait src all)).me = { s.me with
            state := .blocked, lastError := s.lastError, cont := .wait src all } :=
          Function.update_self ..
        rw [hme]
        intro src' all' e
        exact hr src' all' (hc.trans e)

theorem local_sleep (ms : ℕ) : Local s (s.sleep ms) := by
  unfold Sys.sleep
  split
  · exact local_return _ _ nofun
  · split
    · exact ⟨.toSched (by nofun) (by nofun), nofun, nofun⟩
    · exact local_park s (by nofun) (by simp) (by rfl) (by rfl) (by rfl)

theorem local_sleepWoken : Local s s.sleepWoken := by
  unfold Sys.sleepWoken
  split
  · exact (Sys.Local.setMe (by rfl) (by rfl) (by rfl)).result (local_return _ _ (by simp))
  · exact ⟨.toSched (by nofun) (by nofun), nofun, nofun⟩

/-! #### Locks -/

theorem local_enterTurn (k : ℕ) : Local s (s.enterTurn k) := by
  unfold Sys.enterTurn
  split
  · exact (Sys.Local.setObjs s _).result (local_return _ _ (by simp))
  · exact local_park s (by nofun) nofun (by rfl) (by rfl) (by rfl)

theorem local_enterCs (k : ℕ) : Local s (s.enterCs k) := by
  unfold Sys.enterCs
  split
  · exact (Sys.Local.setObjs s _).result (local_enterTurn _ k)
  · exact local_abort s

theorem local_enterWoken (k : ℕ) : Local s (s.enterWoken k) := by
  unfold Sys.enterWoken
  have h : s.Local (s.setMe { s.me with waitCs := 0 }) := .setMe (by rfl) (by rfl) (by rfl)
  dsimp only
  split
  · exact h.result (local_enterTurn _ k)
  · exact h.result (local_return _ _ nofun)

theorem local_tryEnterCs (k : ℕ) : Local s (s.tryEnterCs k) := by
  unfold Sys.tryEnterCs
  split
  · split
    · exact (Sys.Local.setObjs s _).result (local_return _ _ (by simp))
    · exact (Sys.Local.setObjs s _).result (local_return _ _ nofun)
  · exact local_abort s

theorem local_srwTake (k : ℕ) (excl : Bool) (v : ℕ) {ns : List Note} (hns : ∀ i, .ended i ∉ ns) :
    Local s (s.srwTake k excl v ns) := by
  unfold Sys.srwTake
  split
  · refine (Sys.Local.setObjs s _).result (local_return _ _ fun i hi => ?_)
    rcases List.mem_append.mp hi with e | e
    · exact hns i e
    · simp at e
  · exact local_abort s

theorem local_srwTurn (k : ℕ) (excl : Bool) {c : Cont} (hne : ∀ src all, c ≠ .wait src all)
    (v : ℕ) {ns : List Note} (hns : ∀ i, .ended i ∉ ns) : Local s (s.srwTurn k excl c v ns) := by
  unfold Sys.srwTurn
  split
  · exact local_srwTake s k excl v hns
  · exact local_park s hne nofun (by rfl) (by rfl) (by rfl)

theorem local_acquireSrw (k : ℕ) (excl : Bool) : Local s (s.acquireSrw k excl) :=
  local_srwTurn s k excl (by nofun) 0 nofun

theorem local_acquireSrwWoken (k : ℕ) (excl : Bool) : Local s (s.acquireSrwWoken k excl) :=
  (Sys.Local.setMe (by rfl) (by rfl) (by rfl)).result (local_acquireSrw _ k excl)

theorem local_tryAcquireSrw (k : ℕ) (excl : Bool) : Local s (s.tryAcquireSrw k excl) := by
  unfold Sys.tryAcquireSrw
  split
  · exact local_srwTake s k excl 1 nofun
  · exact local_return s 0 nofun

/-! #### Condition variables -/

theorem local_reacquireTurn (lock : ℕ) (isCs shared : Bool) (ret : ℕ) :
    Local s (s.reacquireTurn lock isCs shared ret) := by
  unfold Sys.reacquireTurn
  split
  · split
    · dsimp only
      split
      · exact ((Sys.Local.setObjs s _).trans (.setObjs _ _)).result (local_return _ _ (by simp))
      · exact (Sys.Local.setObjs s _).result
          (local_park _ (by nofun) nofun (by rfl) (by rfl) (by rfl))
    · exact local_abort s
  · exact local_srwTurn s lock _ (by nofun) ret (by simp)

theorem local_reacquireWoken (lock : ℕ) (isCs shared : Bool) (ret : ℕ) :
    Local s (s.reacquireWoken lock isCs shared ret) :=
  (Sys.Local.setMe (by rfl) (by rfl) (by rfl)).result (local_reacquireTurn _ lock isCs shared ret)

theorem local_cvLeave (cv lock : ℕ) (isCs shared granted : Bool) {ns : List Note}
    (hns : ∀ i, .ended i ∉ ns) : Local s (s.cvLeave cv lock isCs shared granted ns) := by
  have h : s.Local (if granted then s else { s with lastError := waitTimeout }) := by
    split
    · exact .refl s
    · exact ⟨rfl, rfl, fun _ _ => rfl, id, id⟩
  unfold Sys.cvLeave
  dsimp only
  refine h.result ((local_reacquireTurn _ lock isCs shared _).append _ fun i hi => ?_)
  rcases List.mem_cons.mp hi with e | e
  · cases e
  · exact hns i e

theorem cvRelease_local (lock : ℕ) (isCs shared : Bool) :
    s.Local (s.cvRelease lock isCs shared).1 := by
  unfold Sys.cvRelease
  split
  · exact .setObjs s _
  · exact .setObjs s _

theorem cvRelease_notes (lock : ℕ) (isCs shared : Bool) (i : ℕ) :
    .ended i ∉ (s.cvRelease lock isCs shared).2 := by
  unfold Sys.cvRelease
  split <;> simp

theorem local_condvarSleep (cv lock : ℕ) (isCs shared : Bool) (ms : ℕ) :
    Local s (s.condvarSleep cv lock isCs shared ms) := by
  unfold Sys.condvarSleep
  split
  · rename_i o _
    have h₁ : s.Local { ({ s with objs := o }.cvRelease lock isCs shared).1 with
        schedReady := true } :=
      ((Sys.Local.setObjs s o).trans (cvRelease_local _ lock isCs shared)).trans
        ⟨rfl, rfl, fun _ _ => rfl, id, id⟩
    have hns : ∀ i, .ended i ∉ ({ s with objs := o }.cvRelease lock isCs shared).2 ++
        [.cvSleep s.cur cv lock isCs shared ms] := by
      intro i hi
      rcases List.mem_append.mp hi with e | e
      · exact cvRelease_notes _ lock isCs shared i e
      · simp at e
    dsimp only
    split
    · exact h₁.result (local_cvLeave _ cv lock isCs shared false hns)
    · exact h₁.result (local_park _ (by nofun) hns (by rfl) (by rfl) (by rfl))
  · exact local_abort s

theorem local_cvSleepWoken (cv lock : ℕ) (isCs shared : Bool) :
    Local s (s.cvSleepWoken cv lock isCs shared) := by
  have h : s.Local (s.setMe { s.me with waitCv := 0, hasTimeout := false }) :=
    .setMe (by rfl) (by rfl) (by rfl)
  unfold Sys.cvSleepWoken
  dsimp only
  split
  · exact (h.trans (.setObjs _ _)).result (local_cvLeave _ cv lock isCs shared true nofun)
  · split
    · exact h.result (local_cvLeave _ cv lock isCs shared false nofun)
    · exact ⟨.toSched (by nofun) (by nofun), nofun, nofun⟩

theorem local_wake (cv : ℕ) (all : Bool) : Local s (s.wake cv all) := by
  unfold Sys.wake
  split
  · exact (Sys.Local.setObjs s _).result (local_return _ _ (by simp))
  · exact local_abort s

theorem local_ensure (o : Option Objs) : Local s (s.ensure o) := by
  cases o with
  | some o => exact (Sys.Local.setObjs s o).result (local_return _ _ nofun)
  | none => exact local_abort s

theorem local_resume : Local s s.resume := by
  unfold Sys.resume
  split
  · rename_i hc
    exact ⟨.refl s, nofun, fun _ => hc⟩
  · rename_i hc
    exact local_waitWoken s hc
  · exact local_sleepWoken s
  · exact local_enterWoken s _
  · exact local_acquireSrwWoken s _ _
  · exact local_cvSleepWoken s _ _ _ _
  · exact local_reacquireWoken s _ _ _ _

end

/-! ### The invariant -/

/-- The shape of the fiber table after a run with the notes `t`. -/
structure Shape (t : List Note) (s : Sys) : Prop where
  cur : s.cur < s.nfiber
  fresh : ∀ i, s.nfiber ≤ i → s.fiber i = .zero
  right : ∀ i, (s.fiber i).Right
  ended : ∀ i, (s.fiber i).state = .done ↔ .ended i ∈ t
  alive : s.mode = .program → s.me.state ≠ .done
  place : s.mode = .program → s.me.cont = .program

theorem shape_start (mem : ℕ → ℕ) : Shape [] (.start mem) where
  cur := by
    show 0 < 1
    omega
  fresh _ _ := rfl
  right _ := nofun
  ended i := ⟨nofun, nofun⟩
  alive _ := nofun
  place _ := rfl

section
variable {t : List Note} {s : Sys}

theorem Shape.of_local {r : Sys × List Note} (h : Shape t s) (hl : Local s r)
    (ha : s.me.state ≠ .done) : Shape (r.2 ++ t) r.1 where
  cur := by
    rw [hl.cur, hl.nfiber]
    exact h.cur
  fresh i hi := by
    rw [hl.nfiber] at hi
    rw [hl.others i (by have := h.cur; omega)]
    exact h.fresh i hi
  right i := by
    by_cases hi : i = s.cur
    · subst hi
      have := hl.right (h.right _)
      unfold Sys.me at this
      rwa [hl.cur] at this
    · rw [hl.others i hi]
      exact h.right i
  ended i := by
    have hmem : .ended i ∈ r.2 ++ t ↔ .ended i ∈ t := by
      rw [List.mem_append]
      exact or_iff_right (hl.notes i)
    rw [hmem, ← h.ended i]
    by_cases hi : i = s.cur
    · subst hi
      have := hl.alive ha
      unfold Sys.me at this
      rw [hl.cur] at this
      exact ⟨fun e => absurd e this, fun e => absurd e ha⟩
    · rw [hl.others i hi]
  alive _ := hl.alive ha
  place := hl.place

theorem Shape.update {s' : Sys} {ns : List Note} {k : ℕ} {f : Fiber} (h : Shape t s)
    (hk : k < s'.nfiber) (hfiber : s'.fiber = Function.update s.fiber k f)
    (hn : s.nfiber ≤ s'.nfiber) (hcur : s'.cur = s.cur) (hr : f.Right)
    (hend : f.state = .done ↔ .ended k ∈ ns ++ t) (hns : ∀ i ≠ k, .ended i ∉ ns)
    (hmode : s'.mode = .program → s'.me.state ≠ .done ∧ s'.me.cont = .program) :
    Shape (ns ++ t) s' where
  cur := by
    rw [hcur]
    exact lt_of_lt_of_le h.cur hn
  fresh i hi := by
    rw [hfiber, Function.update_of_ne (by omega)]
    exact h.fresh i (by omega)
  right i := by
    rw [hfiber, Function.update_apply]
    split
    · exact hr
    · exact h.right i
  ended i := by
    rw [hfiber, Function.update_apply]
    split
    · rename_i hi
      rw [hi]
      exact hend
    · rename_i hi
      rw [List.mem_append, or_iff_right (hns i hi)]
      exact h.ended i
  alive hm := (hmode hm).1
  place hm := (hmode hm).2

theorem Shape.update_return {s₁ : Sys} {ns : List Note} {k v : ℕ} {f : Fiber} (h : Shape t s)
    (hm : s.mode = .program) (hk : k < s₁.nfiber) (hkc : k ≠ s.cur)
    (hfiber : s₁.fiber = Function.update s.fiber k f) (hn : s.nfiber ≤ s₁.nfiber)
    (hcur : s₁.cur = s.cur) (hr : f.Right) (hend : f.state = .done ↔ .ended k ∈ ns ++ t)
    (hns : ∀ i ≠ k, .ended i ∉ ns) :
    Shape ((s₁.return_ v ns).2 ++ t) (s₁.return_ v ns).1 := by
  have hme : s₁.me = s.me := by
    unfold Sys.me
    rw [hcur, hfiber, Function.update_of_ne (Ne.symm hkc)]
  have h₁ : Shape (ns ++ t) { s₁ with mode := .program } :=
    h.update hk hfiber hn hcur hr hend hns fun _ => by
      show s₁.me.state ≠ .done ∧ s₁.me.cont = .program
      rw [hme]
      exact ⟨h.alive hm, h.place hm⟩
  have hl : Local { s₁ with mode := .program } (s₁.return_ v []) := local_return _ v nofun
  have h₂ := h₁.of_local hl (h₁.alive rfl)
  exact h₂

theorem Shape.of_outcome {r : Sys × List Note} (h : Shape t s) (hm : s.mode = .program)
    (ho : Outcome s r) : Shape (r.2 ++ t) r.1 := by
  cases ho with
  | returned same hns =>
      rename_i s₁ v ns
      have hl : s.Local s₁ :=
        ⟨same.nfiber, same.cur, fun i _ => by rw [same.fiber],
          fun ha => by unfold Sys.me; rw [same.cur, same.fiber]; exact ha,
          fun hr => by unfold Sys.me; rw [same.cur, same.fiber]; exact hr⟩
      refine h.of_local (hl.result (local_return s₁ v fun i hi => ?_)) (h.alive hm)
      have := hns _ hi
      cases this
  | stored a b => exact ⟨h.cur, h.fresh, h.right, h.ended, h.alive, h.place⟩
  | created st hst fiber nfiber cur vclock =>
      refine h.update_return hm (k := s.nfiber) (by omega) (Nat.ne_of_gt h.cur) fiber (by omega)
        cur nofun ?_ nofun
      have hz := h.fresh s.nfiber le_rfl
      rw [List.nil_append, ← h.ended, hz]
      rcases hst with e | e <;> rw [e] <;> exact ⟨nofun, nofun⟩
  | started hi hst =>
      rename_i i v
      have hend : FState.ready = .done ↔ .ended i ∈ t := by
        rw [← h.ended, hst]
        exact ⟨nofun, nofun⟩
      by_cases hic : i = s.cur
      · subst hic
        show Shape ([.ret _ _] ++ t) _
        refine h.update (f := { s.me with state := .ready, cont := .program }) h.cur ?_ le_rfl rfl
          nofun ?_ (by simp) fun _ => ?_
        · rw [Sys.return_fiber, Sys.setFiber_fiber, Sys.setFiber_cur, Function.update_self,
            Function.update_idem]
          rfl
        · rw [List.mem_append, or_iff_right (by simp)]
          exact hend
        · unfold Sys.me
          rw [Sys.return_cur, Sys.return_fiber, Sys.setFiber_cur, Function.update_self]
          simp
      · exact h.update_return hm (k := i) hi hic rfl le_rfl rfl (h.right i) hend nofun
  | killed hi hne =>
      exact h.update_return hm hi hne rfl le_rfl rfl (h.right _) (by simp) (by simp)
  | ended f code _ hc =>
      refine h.update (f := { f with state := .done, exitCode := code }) h.cur ?_ le_rfl rfl ?_
        (by simp) (by simp) nofun
      · show Function.update (Function.update s.fiber s.cur f) s.cur _ = _
        rw [Function.update_idem, Sys.setMe_me]
      · intro src all e
        have : f.cont = .wait src all := e
        rw [hc, h.place hm] at this
        cases this
  | exited => exact ⟨h.cur, h.fresh, h.right, h.ended, nofun, nofun⟩

theorem shape_call {c : Call} (h : Shape t s) (hm : s.mode = .program) :
    Shape ((s.call c).2 ++ t) (s.call c).1 := by
  have ha := h.alive hm
  have hquick : ∀ o v n, (∀ i, n ≠ .ended i) → Local s (s.quick o v [n]) := fun o v n hn =>
    (Sys.Local.setObjs s o).result
      (local_return _ v fun i hi => hn i (List.mem_singleton.mp hi).symm)
  cases c with
  | sleep ms => exact h.of_local (local_sleep s ms) ha
  | waitForSingleObject a ms =>
      refine h.of_local ?_ ha
      show Local s (s.waitForSingleObject a ms)
      unfold Sys.waitForSingleObject
      split
      · exact local_wait s _ _ _ (h.place hm)
      · exact local_return s 0 nofun
  | waitForMultipleObjects n ph all ms =>
      refine h.of_local ?_ ha
      show Local s (s.waitForMultipleObjects n ph all ms)
      unfold Sys.waitForMultipleObjects
      split
      · exact local_return s 0 nofun
      · split
        · exact local_wait s _ _ _ (h.place hm)
        · exact local_return s 0 nofun
  | initializeCriticalSection k => exact h.of_local (local_ensure s _) ha
  | deleteCriticalSection k => exact h.of_local (hquick _ 0 _ (by simp)) ha
  | enterCriticalSection k => exact h.of_local (local_enterCs s k) ha
  | tryEnterCriticalSection k => exact h.of_local (local_tryEnterCs s k) ha
  | leaveCriticalSection k => exact h.of_local (hquick _ 0 _ (by simp)) ha
  | initializeSRWLock k => exact h.of_local (local_ensure s _) ha
  | acquireSRWLock k excl => exact h.of_local (local_acquireSrw s k excl) ha
  | releaseSRWLock k excl => exact h.of_local (hquick _ 0 _ (by simp)) ha
  | tryAcquireSRWLock k excl => exact h.of_local (local_tryAcquireSrw s k excl) ha
  | initializeConditionVariable k => exact h.of_local (local_ensure s _) ha
  | wakeConditionVariable k => exact h.of_local (local_wake s k false) ha
  | wakeAllConditionVariable k => exact h.of_local (local_wake s k true) ha
  | sleepConditionVariableSRW cv lock ms shared =>
      exact h.of_local (local_condvarSleep s cv lock false shared ms) ha
  | sleepConditionVariableCS cv lock ms =>
      exact h.of_local (local_condvarSleep s cv lock true false ms) ha
  | _ => exact h.of_outcome hm (call_outcome s rfl rfl)

theorem Shape.wakeRunnable (h : Shape t s) (hm : s.mode = .scheduler) :
    Shape t s.wakeRunnable where
  cur := h.cur
  fresh i hi := by
    rw [wakeRunnable_fiber, if_neg fun hw => by
      have hle : s.nfiber ≤ i := hi
      omega]
    exact h.fresh i hi
  right i := by
    have hr := h.right i
    rw [wakeRunnable_fiber]
    split
    · exact hr
    · exact hr
  ended i := by
    rw [← h.ended i, wakeRunnable_fiber]
    split
    · rename_i hw
      rw [hw.2.1]
      exact ⟨nofun, nofun⟩
    · exact Iff.rfl
  alive e := by
    have hp : s.mode = .program := e
    rw [hm] at hp
    cases hp
  place e := by
    have hp : s.mode = .program := e
    rw [hm] at hp
    cases hp

theorem Shape.fire (h : Shape t s) (hm : s.mode = .scheduler) (c : ℕ) : Shape t (s.fire c) where
  cur := h.cur
  fresh i hi := by
    show (if _ then _ else s.fiber i) = _
    rw [if_neg fun hw => by
      have hle : s.nfiber ≤ i := hi
      omega]
    exact h.fresh i hi
  right i := by
    have hr := h.right i
    show (if _ then _ else s.fiber i : Fiber).Right
    split
    · exact hr
    · exact hr
  ended i := by
    rw [← h.ended i]
    show (if _ then _ else s.fiber i : Fiber).state = _ ↔ _
    split
    · rename_i hw
      rw [hw.2.1]
      exact ⟨nofun, nofun⟩
    · exact Iff.rfl
  alive e := by
    have hp : s.mode = .program := e
    rw [hm] at hp
    cases hp
  place e := by
    have hp : s.mode = .program := e
    rw [hm] at hp
    cases hp

theorem shape_turn (h : Shape t s) (hm : s.mode = .scheduler) :
    Shape (s.turn.2 ++ t) s.turn.1 := by
  have hw := h.wakeRunnable hm
  cases hp : s.wakeRunnable.pick with
  | some i =>
      obtain ⟨hi, hr⟩ := pick_some hp
      have hme := switchTo_me s.wakeRunnable i
      rw [turn_of_pick hp]
      have hl := local_resume (s.wakeRunnable.switchTo i)
      have halive : (s.wakeRunnable.switchTo i).me.state ≠ .done := by
        rw [hme]
        exact nofun
      -- the switch itself, before the fiber has left its call
      have hswitch : ∀ k, ((s.wakeRunnable.switchTo i).fiber k).Right ∧
          (((s.wakeRunnable.switchTo i).fiber k).state = .done ↔ .ended k ∈ t) := by
        intro k
        show (Function.update s.wakeRunnable.fiber i _ k).Right ∧
          ((Function.update s.wakeRunnable.fiber i _ k).state = .done ↔ _)
        rw [Function.update_apply]
        split
        · rename_i hk
          subst hk
          refine ⟨hw.right k, ?_⟩
          rw [← hw.ended k, hr]
          exact ⟨nofun, nofun⟩
        · exact ⟨hw.right k, hw.ended k⟩
      have hmid : Shape t { s.wakeRunnable.switchTo i with mode := .scheduler } :=
        ⟨hi, fun k hk => by
          have hki : k ≠ i := by
            have hle : s.nfiber ≤ k := hk
            have hlt : i < s.nfiber := hi
            omega
          show Function.update s.wakeRunnable.fiber i _ k = _
          rw [Function.update_of_ne hki]
          exact hw.fresh k hk,
          fun k => (hswitch k).1, fun k => (hswitch k).2, nofun, nofun⟩
      exact hmid.of_local ⟨⟨hl.nfiber, hl.cur, hl.others, hl.alive, hl.right⟩, hl.notes, hl.place⟩
        halive
  | none =>
      rw [turn_of_none hp]
      split
      · exact hw.fire hm _
      · refine ⟨hw.cur, hw.fresh, hw.right, hw.ended, fun e => ?_, fun e => ?_⟩
        all_goals
          have hmode : (if _ then _ else _ : Mode) = _ := e
          split at hmode <;> cases hmode

theorem shape_step {s' : Sys} {ns : List Note} {l : Label} (h : Shape t s)
    (hs : s.step l = some (s', ns)) : Shape (ns ++ t) s' := by
  rcases step_cases hs with ⟨c, -, hm, hr⟩ | ⟨-, hm, hr⟩
  · have hk := shape_call (c := c) h hm
    rw [hr] at hk
    exact hk
  · have hk := shape_turn h hm
    rw [hr] at hk
    exact hk

end

theorem run_shape {ok : List Note → Sys → Label → Prop} {mem : ℕ → ℕ} {t : List Note} {s : Sys}
    (h : Run ok mem t s) : Shape t s := by
  induction h with
  | start => exact shape_start mem
  | step _ _ hs ih => exact shape_step ih hs

end Aret.Threads
