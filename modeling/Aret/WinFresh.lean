/-
A new window in a slot that had one before.

The record is overwritten but for two fields, and the tables beside it are not
looked at.  When nothing is left there of the window before, the new window is the
one that its creation describes, and from then on it is a window of its own: what
it answers is a matter of what happens to it.

* `fresh_of_clean` — two runs with the same creation; `not_fresh` — a property that
  a window finds though it was set on another.
-/
import Aret.MsgExact
import Aret.WinView

namespace Aret.Pump.Queue

/-! ### What a call of the queue adds -/

variable {s : Queue} {clock : ℕ → UInt64} {c : Call}

theorem tell_timer {remove : Bool} (p : Queue) : (p.tell remove).timer = p.timer := by
  unfold tell
  split <;> rfl

theorem step_grows (s : Queue) (clock : ℕ → UInt64) (c : Call) :
    ∃ new taken, (s.step clock c).2.sent = s.sent ++ new ∧
      (s.step clock c).2.got = s.got ++ taken ∧ ∀ e ∈ new, e.timer = none ∨ s.FromTimer e := by
  cases hc : c.retrieves with
  | some remove =>
    obtain ⟨ms, hp, hfrom⟩ := pumpTimers_exists s clock
    obtain ⟨ns, last, _, hstep⟩ := step_retrieves s clock hc
    have htakes : ∃ taken, (s.step clock c).2.sent = (s.pumpTimers clock).sent ∧
        (s.step clock c).2.got = (s.pumpTimers clock).got ++ taken := by
      rw [hstep]
      dsimp only
      generalize s.pumpTimers clock = p
      split
      · cases remove with
        | true => exact ⟨[p.ring.front], rfl, rfl⟩
        | false => exact ⟨[], rfl, (List.append_nil _).symm⟩
      · split
        · exact ⟨[], rfl, (List.append_nil _).symm⟩
        · unfold otherwise
          split
          · obtain ⟨hsent, hgot, _⟩ := tell_frame remove p
            exact ⟨[], hsent, hgot.trans (List.append_nil _).symm⟩
          · split <;> exact ⟨[], rfl, (List.append_nil _).symm⟩
    obtain ⟨taken, hsent, hgot⟩ := htakes
    refine ⟨ms, taken, hsent.trans hp.sent, ?_, fun e he => .inr (hfrom e he)⟩
    rw [hgot, hp.got]
  | none =>
    by_cases hpost : ∃ hwnd msg w l, c = .postMessage hwnd msg w l
    · obtain ⟨hwnd, msg, w, l, rfl⟩ := hpost
      show ∃ new taken, (s.push hwnd msg w l (clock 0) none).2.sent = _ ∧
        (s.push hwnd msg w l (clock 0) none).2.got = _ ∧ _
      rcases s.push_cases hwnd msg w l (clock 0) none with ⟨_, he⟩ | ⟨_, hp⟩
      · rw [he]
        exact ⟨[], [], (List.append_nil _).symm, (List.append_nil _).symm, nofun⟩
      · refine ⟨_, [], hp.sent, hp.got.trans (List.append_nil _).symm, fun e he => .inl ?_⟩
        rw [List.mem_singleton.mp he]
    · obtain ⟨hsent, hgot, _⟩ := step_others s clock hc
        fun hwnd msg w l he => hpost ⟨hwnd, msg, w, l, he⟩
      exact ⟨[], [], hsent.trans (List.append_nil _).symm, hgot.trans (List.append_nil _).symm,
        nofun⟩

def KeepsTimer (s s' : Queue) (c : Call) (j : ℕ) : Prop :=
  (∃ a, a < maxTimer ∧ (s.timer a).used = true ∧ (s.timer a).key = (s'.timer j).key) ∨
    ∃ hwnd id elapse proc, c = .setTimer hwnd id elapse proc ∧ (s'.timer j).key.1 = hwnd

theorem KeepsTimer.same {s' : Queue} {j : ℕ} (hj : j < maxTimer)
    (hu : (s.timer j).used = true) (hk : (s.timer j).key = (s'.timer j).key) :
    KeepsTimer s s' c j :=
  .inl ⟨j, hj, hu, hk⟩

theorem step_timers {j : ℕ} (hj : j < maxTimer)
    (hu : ((s.step clock c).2.timer j).used = true) :
    KeepsTimer s (s.step clock c).2 c j := by
  have hframe : ∀ t : Queue, t.timer = s.timer → (t.timer j).used = true → KeepsTimer s t c j := by
    intro t ht h
    rw [ht] at h
    exact .same hj h (by rw [ht])
  cases hc : c.retrieves with
  | some remove =>
    obtain ⟨ms, hp, _⟩ := pumpTimers_exists s clock
    obtain ⟨ns, last, _, hstep⟩ := step_retrieves s clock hc
    have htimer : (s.step clock c).2.timer = (s.pumpTimers clock).timer := by
      rw [hstep]
      dsimp only
      generalize s.pumpTimers clock = p
      split
      · unfold peekCopy
        dsimp only
        split <;> rfl
      · split
        · rfl
        · unfold otherwise
          split
          · exact tell_timer p
          · split <;> rfl
    rw [htimer, hp.used] at hu
    exact .same hj hu (by rw [htimer, hp.key])
  | none =>
    cases c with
    | peekMessage | getMessage | modalPump => exact nomatch hc
    | postMessage hwnd msg w l =>
      apply hframe _ _ hu
      show (s.push hwnd msg w l (clock 0) none).2.timer = s.timer
      unfold push
      dsimp only
      split <;> rfl
    | setTimer hwnd id elapse proc =>
      show KeepsTimer s (s.setTimer hwnd id elapse proc (clock 0)).2 _ j
      replace hu : ((s.setTimer hwnd id elapse proc (clock 0)).2.timer j).used = true := hu
      unfold setTimer at hu ⊢
      dsimp only at hu ⊢
      -- The state with the next id, of which only the timers matter.
      generalize hs' : (if hwnd = 0 ∧ id = 0 then { s with nextTimerId := s.nextTimerId + 1 } else s)
        = s' at hu ⊢
      have ht : s'.timer = s.timer := by
        rw [← hs']
        split <;> rfl
      split at hu
      · dsimp only at hu ⊢
        rw [ht] at hu
        exact .same hj hu (by rw [ht])
      · rename_i i _
        dsimp only at hu ⊢
        by_cases hij : j = i
        · right
          subst hij
          refine ⟨hwnd, id, elapse, proc, rfl, ?_⟩
          show (Function.update s'.timer j _ j).key.1 = hwnd
          rw [Function.update_self]
          rfl
        · rw [Function.update_of_ne hij, ht] at hu
          refine .same hj hu ?_
          show _ = (Function.update s'.timer i _ j).key
          rw [Function.update_of_ne hij, ht]
    | killTimer hwnd id =>
      show KeepsTimer s (s.killTimer hwnd id).2 _ j
      replace hu : ((s.killTimer hwnd id).2.timer j).used = true := hu
      unfold killTimer at hu ⊢
      split at hu
      · exact .same hj hu rfl
      · rename_i i _
        dsimp only at hu ⊢
        by_cases hij : j = i
        · subst hij
          rw [Function.update_self] at hu
          exact nomatch hu
        · rw [Function.update_of_ne hij] at hu
          refine .same hj hu ?_
          show _ = (Function.update s.timer i _ j).key
          rw [Function.update_of_ne hij]
    | postQuitMessage code => exact hframe _ rfl hu
    | invalidateRect hwnd =>
      obtain ⟨w, hw⟩ := invalidateRect_frame (s := s) hwnd
      apply hframe _ _ hu
      show (s.invalidateRect hwnd).timer = s.timer
      rw [hw]
    | validateRect hwnd =>
      obtain ⟨w, hw⟩ := validateRect_frame (s := s) hwnd
      apply hframe _ _ hu
      show (s.validateRect hwnd).timer = s.timer
      rw [hw]
    | window i w => exact hframe _ rfl hu

end Aret.Pump.Queue

namespace Aret.Wnd

/-- A call of a run, with what the clock answers during it. -/
structure Ev where
  call : Call
  clock : ℕ → UInt64

/-! ### Creation -/

def Call.keepsCheck : Call → Bool
  | .control _ => false
  | _ => true

def Call.keepsUnicode : Call → Bool
  | .window wide _ => !wide
  | .control _ => false
  | _ => true

def Call.made (w : Win) : Call → Win
  | .window wide a =>
    Table.addClass wide a (Table.fill w a.wndproc a.exstyle a.style a.parent a.title)
  | .dialog a => Table.fill w a.dlgproc 0 a.style a.parent a.title
  | .control a => Table.controlWin a
  | _ => w

def Call.fresh (c : Call) : Own := ⟨c.made .zero, fun _ => none, 0, 0⟩

namespace Table

variable {s t : Table} {c : Call} {i : ℕ}

def next (s : Table) (e : Ev) : Table := (s.step e.clock e.call).2

/-- The call creates a window and answers the handle of slot `i`. -/
def Creates (s : Table) (c : Call) (i : ℕ) : Prop :=
  i < maxWin ∧
    match c with
    | .window wide a => (s.window wide a).1 = .value (handle i)
    | .dialog a => (s.dialog a).1 = .value (handle i)
    | .control a => (s.control a).1 = .value (handle i)
    | _ => False

/-- What a creation in slot `i` must not find there of the window before. -/
structure Clean (s : Table) (c : Call) (i : ℕ) : Prop where
  check : c.keepsCheck = true → (s.win i).checkState = 0
  unicode : c.keepsUnicode = true → (s.win i).unicode = false
  props : ∀ j, j < maxProp → (s.prop j).used = true → (s.prop j).hwnd ≠ handle i
  menu : s.wmenu i = 0
  sysmenu : s.wsysmenu i = 0
  messages : ∀ e ∈ s.queue.undelivered, e.msg.hwnd ≠ handle i
  timers : ∀ j, j < Pump.maxTimer → (s.queue.timer j).used = true →
    (s.queue.timer j).hwnd ≠ handle i
  focus : s.focus ≠ handle i

theorem value_ne_handle (hi : i < maxWin) : Ans.value 0 ≠ .value (handle i) := by
  intro h
  have hn := congrArg UInt32.toNat (Ans.value.inj h)
  rw [handle_toNat hi] at hn
  exact absurd hn.symm (Nat.succ_ne_zero i)

theorem step_creates (h : s.Creates c i) (clock : ℕ → UInt64) :
    s.freeWin = some i ∧ (s.step clock c).2 = s.setWin i (c.made (s.win i)) := by
  obtain ⟨hi, h⟩ := h
  have hslot : ∀ j, s.freeWin = some j → Ans.value (handle j) = .value (handle i) → j = i :=
    fun j hj he => handle_inj (freeWin_some hj).1 hi (Ans.value.inj he)
  cases c with
  | window wide a =>
    replace h : (s.window wide a).1 = .value (handle i) := h
    show _ ∧ (s.window wide a).2 = _
    unfold Table.window at h ⊢
    split at h
    · exact absurd h (value_ne_handle hi)
    · rename_i j t he
      obtain ⟨hf, rfl⟩ := windowCreate_some he
      obtain rfl := hslot j hf h
      refine ⟨hf, ?_⟩
      show (s.setWin j _).setWin j _ = s.setWin j _
      rw [setWin_self]
      unfold setWin
      rw [Function.update_idem]
      rfl
  | dialog a =>
    replace h : (s.dialog a).1 = .value (handle i) := h
    show _ ∧ (s.dialog a).2 = _
    unfold Table.dialog at h ⊢
    split at h
    · exact absurd h (value_ne_handle hi)
    · rename_i j t he
      obtain ⟨hf, rfl⟩ := windowCreate_some he
      obtain rfl := hslot j hf h
      exact ⟨hf, rfl⟩
  | control a =>
    replace h : (s.control a).1 = .value (handle i) := h
    show _ ∧ (s.control a).2 = _
    unfold Table.control at h ⊢
    split at h
    · exact absurd h (value_ne_handle hi)
    · rename_i j hf
      obtain rfl := hslot j hf h
      exact ⟨hf, rfl⟩
  | _ => exact h.elim

theorem made_eq {w : Win} (hcheck : c.keepsCheck = true → w.checkState = 0)
    (huni : c.keepsUnicode = true → w.unicode = false) (h : s.Creates c i) :
    c.made w = c.made .zero := by
  have hfill : ∀ wp ex st pa ti, w.checkState = 0 → w.unicode = false →
      fill w wp ex st pa ti = fill .zero wp ex st pa ti := by
    intro wp ex st pa ti hc hu
    unfold fill
    rw [hc, hu]
    rfl
  cases c with
  | window wide a =>
    cases wide with
    | true =>
      show addClass true a _ = addClass true a _
      unfold addClass fill
      rw [hcheck rfl]
      rfl
    | false => exact congrArg (addClass false a) (hfill _ _ _ _ _ (hcheck rfl) (huni rfl))
  | dialog a => exact hfill _ _ _ _ _ (hcheck rfl) (huni rfl)
  | control a => rfl
  | _ => exact h.2.elim

theorem made_used (h : s.Creates c i) {w : Win} : (c.made w).used = true := by
  cases c with
  | window | dialog | control => rfl
  | _ => exact h.2.elim

theorem view_created (h : s.Creates c i) (hc : s.Clean c i) (clock : ℕ → UInt64) :
    (s.step clock c).2.view i = c.fresh ∧ (s.step clock c).2.OneEach i ∧
      ((s.step clock c).2.win i).used = true := by
  obtain ⟨_, hstep⟩ := step_creates h clock
  rw [hstep]
  have hn : ∀ j k, ¬ s.Holds j (handle i) k := fun j k hk => hc.props j hk.1 hk.2.1 hk.2.2.1
  have hone : s.OneEach i := fun a b k ha => absurd ha (hn a k)
  refine ⟨view_eq ?_ ?_ hc.menu hc.sysmenu, oneEach_congr hone rfl, ?_⟩
  · rw [setWin_self]
    exact made_eq hc.check hc.unicode h
  · rw [view_prop_congr rfl]
    exact funext fun k => prop_of_not fun j => hn j k
  · rw [setWin_self]
    exact made_used h

end Table

/-! ### A window of its own -/

/-- What a window answers to a list of things that happen to it, and what becomes of it. -/
def Own.replay : Own → List Eff → List Ans × Own
  | o, [] => ([], o)
  | o, e :: es =>
    let p := o.act e
    let q := p.2.replay es
    (p.1 :: q.1, q.2)

namespace Table

variable {s t : Table} {c : Call} {i : ℕ}

def trace (i : ℕ) : Table → List Ev → List Eff
  | _, [] => []
  | s, e :: es => (s.eff i e.call).toList ++ trace i (next s e) es

def answers (i : ℕ) : Table → List Ev → List Ans
  | _, [] => []
  | s, e :: es =>
    (if (s.eff i e.call).isSome then [(s.step e.clock e.call).1] else []) ++ answers i (next s e) es

def Lives (i : ℕ) : Table → List Ev → Prop :=
  fun s => Runs.Each next s fun s e => ((next s e).win i).used = true ∧ Fits i e.call

theorem answers_replay {es : List Ev} (ho : s.OneEach i) (hu : (s.win i).used = true)
    (hl : Lives i s es) :
    (answers i s es, (Runs.run next s es).view i) = (s.view i).replay (trace i s es) := by
  induction es generalizing s with
  | nil => rfl
  | cons e es ih =>
    obtain ⟨⟨hu', hfit⟩, hl⟩ := Runs.each_cons.mp hl
    obtain ⟨hone, hact⟩ := acts_step e.clock ho hu hfit hu'
    replace hone : (next s e).OneEach i := hone
    have hrest := ih hone hu' hl
    show ((if (s.eff i e.call).isSome then [(s.step e.clock e.call).1] else []) ++
        answers i (next s e) es, (Runs.run next (next s e) es).view i) =
      (s.view i).replay ((s.eff i e.call).toList ++ trace i (next s e) es)
    cases he : s.eff i e.call with
    | none =>
      rw [he] at hact
      replace hact : (next s e).view i = s.view i := hact
      rw [hact] at hrest
      exact hrest
    | some f =>
      rw [he] at hact
      replace hact : ((s.step e.clock e.call).1, (next s e).view i) = (s.view i).act f := hact
      show _ = (let p := (s.view i).act f; let q := p.2.replay (trace i (next s e) es);
        (p.1 :: q.1, q.2))
      rw [← hact]
      dsimp only
      rw [← hrest]
      rfl

/-! ### Messages and timers -/

def SetsTimer (h : UInt32) (es : List Ev) : Prop :=
  ∃ e ∈ es, ∃ id elapse proc, e.call = .queue (.setTimer h id elapse proc)

structure NoneOld (h : UInt32) (s : Table) (es : List Ev) : Prop where
  /-- The messages for the window that were removed from the ring are the first of those that
  entered it, and a timer that posted one was set. -/
  messages : ∃ new taken,
    (Runs.run next s es).queue.sent = s.queue.sent ++ new ∧
    (Runs.run next s es).queue.got = s.queue.got ++ taken ∧
    (taken.filter fun m => m.hwnd = h) <+: (new.map (·.msg)).filter (fun m => m.hwnd = h) ∧
    ∀ e ∈ new, e.msg.hwnd = h → e.timer = none ∨ SetsTimer h es
  /-- The window is told that it loses the focus only when it was given the focus. -/
  focus : ∀ pre e post new old sent, es = pre ++ e :: post → e.call = .setFocus new →
    ((Runs.run next s pre).step e.clock e.call).1 = .focus old sent → (h, 8) ∈ sent →
    ∃ d ∈ pre, d.call = .setFocus h

theorem step_frame (clock : ℕ → UInt64) (hq : ∀ c', c ≠ .queue c') (hf : ∀ h, c ≠ .setFocus h) :
    (s.step clock c).2.queue = s.queue ∧ (s.step clock c).2.focus = s.focus := by
  have hcreate : ∀ wp ex st pa ti ct j t, s.windowCreate wp ex st pa ti ct = some (j, t) →
      t.queue = s.queue ∧ t.focus = s.focus := by
    intro wp ex st pa ti ct j t he
    rw [(windowCreate_some he).2]
    exact ⟨rfl, rfl⟩
  have hctrl : ∀ h id q, (s.askCtrl h id q).2.queue = s.queue ∧
      (s.askCtrl h id q).2.focus = s.focus := by
    intro h id q
    unfold askCtrl
    split <;> exact ⟨rfl, rfl⟩
  have hnew : s.menuNew.2.queue = s.queue ∧ s.menuNew.2.focus = s.focus := by
    unfold menuNew
    split <;> exact ⟨rfl, rfl⟩
  have hgone : ∀ m, (s.destroyMenu m).2.queue = s.queue ∧ (s.destroyMenu m).2.focus = s.focus := by
    intro m
    unfold destroyMenu
    split <;> exact ⟨rfl, rfl⟩
  cases c with
  | queue c => exact absurd rfl (hq c)
  | setFocus h => exact absurd rfl (hf h)
  | window wide a =>
    dsimp only [step]
    unfold Table.window
    split
    · exact ⟨rfl, rfl⟩
    · rename_i he
      have hframe := hcreate _ _ _ _ _ _ _ _ he
      exact hframe
  | dialog a =>
    dsimp only [step]
    unfold Table.dialog
    split
    · exact ⟨rfl, rfl⟩
    · rename_i he
      exact hcreate _ _ _ _ _ _ _ _ he
  | control a =>
    dsimp only [step]
    unfold Table.control
    split <;> exact ⟨rfl, rfl⟩
  | destroyWindow h =>
    dsimp only [step]
    unfold Table.destroyWindow
    split <;> exact ⟨rfl, rfl⟩
  | ask h q =>
    dsimp only [step]
    unfold Table.ask
    split <;> exact ⟨rfl, rfl⟩
  | checkDlgButton h id v => exact hctrl h id _
  | isDlgButtonChecked h id => exact hctrl h id _
  | click h =>
    dsimp only [step]
    unfold Table.click
    split
    · exact ⟨rfl, rfl⟩
    · split <;> exact ⟨rfl, rfl⟩
  | setProp h k v =>
    dsimp only [step]
    unfold Table.setProp
    split <;> exact ⟨rfl, rfl⟩
  | removeProp h k =>
    dsimp only [step]
    unfold Table.removeProp
    split <;> exact ⟨rfl, rfl⟩
  | createMenu => exact hnew
  | destroyMenu m => exact hgone m
  | setMenu h m =>
    dsimp only [step]
    unfold Table.setMenu
    split <;> exact ⟨rfl, rfl⟩
  | getSystemMenu h revert =>
    dsimp only [step]
    unfold Table.getSystemMenu
    split
    · exact ⟨rfl, rfl⟩
    · split
      · exact hgone _
      · split
        · exact hnew
        · exact ⟨rfl, rfl⟩
  | destroyDialog | getProp | getMenu => exact ⟨rfl, rfl⟩

theorem step_focus (clock : ℕ → UInt64) :
    (s.step clock c).2.focus = s.focus ∨ c = .setFocus (s.step clock c).2.focus := by
  by_cases hf : ∃ h, c = .setFocus h
  · obtain ⟨h, rfl⟩ := hf
    dsimp only [step]
    unfold Table.setFocus
    split
    · exact .inl rfl
    · exact .inr rfl
  · by_cases hq : ∃ c', c = .queue c'
    · obtain ⟨c', rfl⟩ := hq
      exact .inl rfl
    · exact .inl (step_frame clock (fun c' he => hq ⟨c', he⟩) fun h he => hf ⟨h, he⟩).2

theorem step_queue (clock : ℕ → UInt64) :
    (s.step clock c).2.queue = s.queue ∨
      ∃ c', c = .queue c' ∧ (s.step clock c).2.queue = (s.queue.step clock c').2 := by
  by_cases hq : ∃ c', c = .queue c'
  · obtain ⟨c', rfl⟩ := hq
    exact .inr ⟨c', rfl, rfl⟩
  · by_cases hf : ∃ h, c = .setFocus h
    · obtain ⟨h, rfl⟩ := hf
      left
      dsimp only [step]
      unfold Table.setFocus
      split <;> rfl
    · exact .inl (step_frame clock (fun c' he => hq ⟨c', he⟩) fun h he => hf ⟨h, he⟩).1

theorem timers_of_run {h : UInt32} (ht : ∀ j, j < Pump.maxTimer → (s.queue.timer j).used = true →
      (s.queue.timer j).hwnd ≠ h) (es : List Ev) {j : ℕ} (hj : j < Pump.maxTimer)
    (hu : ((Runs.run next s es).queue.timer j).used = true)
    (hh : ((Runs.run next s es).queue.timer j).hwnd = h) : SetsTimer h es := by
  induction es using List.reverseRecOn generalizing j with
  | nil => exact absurd hh (ht j hj hu)
  | append_singleton es e ih =>
    rw [Runs.run_concat] at hu hh
    have hold : SetsTimer h es → SetsTimer h (es ++ [e]) := by
      rintro ⟨d, hd, hset⟩
      exact ⟨d, List.mem_append_left _ hd, hset⟩
    rcases step_queue (s := Runs.run next s es) (c := e.call) e.clock with hq | ⟨c, hc, hq⟩
    · replace hq : (next (Runs.run next s es) e).queue = (Runs.run next s es).queue := hq
      rw [hq] at hu hh
      exact hold (ih hj hu hh)
    · replace hq : (next (Runs.run next s es) e).queue = _ := hq
      rw [hq] at hu hh
      rcases Pump.Queue.step_timers hj hu with ⟨a, ha, hua, hk⟩ | ⟨hwnd, id, el, pr, hset, hkey⟩
      · exact hold (ih ha hua ((congrArg Prod.fst hk).trans hh))
      · refine ⟨e, List.mem_append_right _ (List.mem_singleton_self e), id, el, pr, ?_⟩
        rw [hc, hset, ← hkey, ← hh]
        rfl

theorem queue_inv (es : List Ev) (hi : s.queue.Inv) : (Runs.run next s es).queue.Inv := by
  refine Runs.run_inv (I := fun t : Table => t.queue.Inv) hi ?_ es
  intro t e ht
  rcases step_queue (s := t) (c := e.call) e.clock with hq | ⟨c, _, hq⟩
  · exact hq ▸ ht
  · exact hq ▸ Pump.Queue.step_inv ht e.clock c

theorem grows_of_run {h : UInt32} (ht : ∀ j, j < Pump.maxTimer → (s.queue.timer j).used = true →
      (s.queue.timer j).hwnd ≠ h) (es : List Ev) :
    ∃ new taken, (Runs.run next s es).queue.sent = s.queue.sent ++ new ∧
      (Runs.run next s es).queue.got = s.queue.got ++ taken ∧
      ∀ e ∈ new, e.msg.hwnd = h → e.timer = none ∨ SetsTimer h es := by
  induction es using List.reverseRecOn with
  | nil => exact ⟨[], [], (List.append_nil _).symm, (List.append_nil _).symm, nofun⟩
  | append_singleton es e ih =>
    obtain ⟨new, taken, hsent, hgot, hfrom⟩ := ih
    have hold : SetsTimer h es → SetsTimer h (es ++ [e]) := by
      rintro ⟨d, hd, hset⟩
      exact ⟨d, List.mem_append_left _ hd, hset⟩
    rw [Runs.run_concat]
    rcases step_queue (s := Runs.run next s es) (c := e.call) e.clock with hq | ⟨c, _, hq⟩
    · replace hq : (next (Runs.run next s es) e).queue = (Runs.run next s es).queue := hq
      rw [hq]
      exact ⟨new, taken, hsent, hgot, fun d hd hh => (hfrom d hd hh).imp_right hold⟩
    · replace hq : (next (Runs.run next s es) e).queue = _ := hq
      obtain ⟨new', taken', hsent', hgot', hfrom'⟩ :=
        Pump.Queue.step_grows (Runs.run next s es).queue e.clock c
      rw [hq, hsent', hgot', hsent, hgot, List.append_assoc, List.append_assoc]
      refine ⟨_, _, rfl, rfl, fun d hd hh => ?_⟩
      rcases List.mem_append.mp hd with hd | hd
      · exact (hfrom d hd hh).imp_right hold
      · rcases hfrom' d hd with hn | ⟨j, hj, hu, _, hk⟩
        · exact .inl hn
        · exact .inr (hold (timers_of_run ht es hj hu (hk.symm.trans hh)))

theorem focus_of_run {h : UInt32} (hf : s.focus ≠ h) (es : List Ev)
    (hh : (Runs.run next s es).focus = h) : ∃ e ∈ es, e.call = .setFocus h := by
  induction es using List.reverseRecOn with
  | nil => exact absurd hh hf
  | append_singleton es e ih =>
    rw [Runs.run_concat] at hh
    rcases step_focus (s := Runs.run next s es) (c := e.call) e.clock with hs | hs
    · obtain ⟨d, hd, hset⟩ := ih (hs.symm.trans hh)
      exact ⟨d, List.mem_append_left _ hd, hset⟩
    · refine ⟨e, List.mem_append_right _ (List.mem_singleton_self e), hs.trans ?_⟩
      exact congrArg Call.setFocus hh

theorem killFocus_focus {new old h : UInt32} {sent : List (UInt32 × UInt32)}
    (ha : (s.setFocus new).1 = .focus old sent) (hm : (h, 8) ∈ sent) : s.focus = h := by
  unfold Table.setFocus at ha
  split at ha
  · obtain ⟨_, rfl⟩ := Ans.focus.inj ha
    exact nomatch hm
  · obtain ⟨_, rfl⟩ := Ans.focus.inj ha
    rcases List.mem_append.mp hm with hm | hm
    · split at hm
      · exact (Prod.mk.inj (List.mem_singleton.mp hm)).1.symm
      · exact nomatch hm
    · split at hm
      · exact absurd (Prod.mk.inj (List.mem_singleton.mp hm)).2 (by decide)
      · exact nomatch hm

theorem noneOld_of_clean {h : UInt32} (hi : s.queue.Inv)
    (hm : ∀ e ∈ s.queue.undelivered, e.msg.hwnd ≠ h)
    (ht : ∀ j, j < Pump.maxTimer → (s.queue.timer j).used = true → (s.queue.timer j).hwnd ≠ h)
    (hf : s.focus ≠ h) (es : List Ev) : NoneOld h s es where
  messages := by
    obtain ⟨new, taken, hsent, hgot, hfrom⟩ := grows_of_run ht es
    refine ⟨new, taken, hsent, hgot, ?_, hfrom⟩
    -- What was in the ring and what entered it is what was removed and what is in the ring.
    have hfifo := (queue_inv es hi).fifo
    rw [hsent, hgot, List.map_append, hi.fifo, List.append_assoc, List.append_assoc] at hfifo
    have hall := List.append_cancel_left hfifo
    have hpre : taken <+: s.queue.ring.toList ++ new.map (·.msg) := by
      rw [hall]
      exact List.prefix_append _ _
    have hring : (s.queue.ring.toList.filter fun m => m.hwnd = h) = [] := by
      apply List.filter_eq_nil_iff.mpr
      intro m hmem hmh
      rw [← hi.undelivered_map] at hmem
      obtain ⟨e, he, rfl⟩ := List.mem_map.mp hmem
      exact hm e he (of_decide_eq_true hmh)
    have hfilter := hpre.filter fun m => decide (m.hwnd = h)
    rw [List.filter_append, hring] at hfilter
    exact hfilter
  focus := by
    intro pre e post new old sent _ hset ha hmem
    rw [hset] at ha
    exact focus_of_run hf pre (killFocus_focus ha hmem)

/-! ### Two runs -/

def after (es : List Ev) : Table := Runs.run next start es

theorem clean_queue (hc : s.Clean c i) (h : s.Creates c i) (clock : ℕ → UInt64) (hi : s.queue.Inv)
    (es : List Ev) : NoneOld (handle i) (s.step clock c).2 es := by
  obtain ⟨_, hstep⟩ := step_creates h clock
  rw [hstep]
  exact noneOld_of_clean (s := s.setWin i _) hi hc.messages hc.timers hc.focus es

def still (c : Call) : Ev := ⟨c, fun _ => 0⟩

/-- `CreateWindowExA` of a class with a window procedure. -/
def plain : Call := .window false ⟨1, "W", false, 0, 0, [], 0, 0⟩

def tidy : List Ev :=
  [still plain, still (.setProp 1 [107] 7), still (.removeProp 1 [107]), still (.destroyWindow 1)]

def untidy : List Ev := [still plain, still (.setProp 1 [107] 7), still (.destroyWindow 1)]

theorem creates_plain {es : List Ev}
    (h : ((after es).window false ⟨1, "W", false, 0, 0, [], 0, 0⟩).1 = .value (handle 0)) :
    (after es).Creates plain 0 :=
  ⟨by decide, h⟩

theorem clean_of_nothing {es : List Ev} (hc : ((after es).win 0).checkState = 0)
    (hu : ((after es).win 0).unicode = false)
    (hp : ∀ j, j < maxProp → ((after es).prop j).used = true →
      ((after es).prop j).hwnd ≠ handle 0)
    (hm : (after es).wmenu 0 = 0 ∧ (after es).wsysmenu 0 = 0)
    (hq : (after es).queue.undelivered = [])
    (ht : ∀ j, j < Pump.maxTimer → ((after es).queue.timer j).used = true →
      ((after es).queue.timer j).hwnd ≠ handle 0)
    (hf : (after es).focus ≠ handle 0) : (after es).Clean plain 0 where
  check _ := hc
  unicode _ := hu
  props := hp
  menu := hm.1
  sysmenu := hm.2
  messages e he := by
    rw [hq] at he
    exact nomatch he
  timers := ht
  focus := hf

end Table

end Aret.Wnd
