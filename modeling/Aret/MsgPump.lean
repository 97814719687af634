/-
What the queue of messages holds, and what the timers and the calls do to it.
-/
import Aret.MsgQueue
import Mathlib.Data.List.Nodup

namespace Aret.Pump

namespace Queue

variable (s : Queue) (clock : ℕ → UInt64)

def undelivered : List Sent := s.sent.drop s.got.length

def expired : List ℕ := (List.range maxTimer).filter (s.due (clock 0))

/-- The WM_TIMER of the timer in slot `i`. -/
def timerMsg (i : ℕ) : Sent :=
  let t := s.timer i
  ⟨⟨t.hwnd, wmTimer, t.id, t.proc, stamp (clock (i + 1)), 0, 0⟩, some t.key⟩

def ticks : List Sent := (s.expired clock).map (s.timerMsg clock)

structure Inv : Prop where
  fifo : s.sent.map (·.msg) = s.got ++ s.ring.toList
  keys : ∀ i j, i < maxTimer → j < maxTimer → (s.timer i).used = true → (s.timer j).used = true →
    (s.timer i).key = (s.timer j).key → i = j
  quit : s.quit = true ↔ 0 < s.asked

variable {s}

theorem Inv.undelivered_map (h : s.Inv) : s.undelivered.map (·.msg) = s.ring.toList := by
  rw [undelivered, List.map_drop, h.fifo, List.drop_left]

theorem Inv.length_undelivered (h : s.Inv) : s.undelivered.length = s.ring.toList.length := by
  rw [← h.undelivered_map, List.length_map]

theorem Inv.got_le (h : s.Inv) : s.got.length ≤ s.sent.length := by
  have hl := congrArg List.length h.fifo
  rw [List.length_map, List.length_append] at hl
  omega

theorem inv_start : start.Inv where
  fifo := rfl
  keys := fun _ _ _ _ hi => nomatch hi
  quit := ⟨nofun, fun h => absurd h (Nat.lt_irrefl 0)⟩

end Queue

/-! ### Messages that enter the ring -/

/-- From `s` to `s'` the messages `ms` entered the ring, and due times may have changed. -/
structure Posts (s s' : Queue) (ms : List Sent) : Prop where
  sent : s'.sent = s.sent ++ ms
  ring : s'.ring.toList = s.ring.toList ++ ms.map (·.msg)
  key : ∀ i, (s'.timer i).key = (s.timer i).key
  used : ∀ i, (s'.timer i).used = (s.timer i).used
  got : s'.got = s.got
  quit : s'.quit = s.quit
  quitCode : s'.quitCode = s.quitCode
  win : s'.win = s.win
  asked : s'.asked = s.asked
  told : s'.told = s.told

namespace Posts

variable {s t u : Queue} {ms ns : List Sent}

theorem refl (s : Queue) : Posts s s [] :=
  ⟨(List.append_nil _).symm, (List.append_nil _).symm, fun _ => rfl, fun _ => rfl, rfl, rfl, rfl,
    rfl, rfl, rfl⟩

theorem trans (h : Posts s t ms) (k : Posts t u ns) : Posts s u (ms ++ ns) where
  sent := by rw [k.sent, h.sent, List.append_assoc]
  ring := by rw [k.ring, h.ring, List.map_append, List.append_assoc]
  key i := (k.key i).trans (h.key i)
  used i := (k.used i).trans (h.used i)
  got := k.got.trans h.got
  quit := k.quit.trans h.quit
  quitCode := k.quitCode.trans h.quitCode
  win := k.win.trans h.win
  asked := k.asked.trans h.asked
  told := k.told.trans h.told

theorem inv (h : Posts s t ms) (hi : s.Inv) : t.Inv where
  fifo := by rw [h.sent, List.map_append, hi.fifo, h.got, h.ring, List.append_assoc]
  keys i j hli hlj hui huj hk := by
    rw [h.used] at hui huj
    rw [h.key, h.key] at hk
    exact hi.keys i j hli hlj hui huj hk
  quit := by rw [h.quit, h.asked, hi.quit]

theorem undelivered (h : Posts s t ms) (hi : s.Inv) : t.undelivered = s.undelivered ++ ms := by
  show t.sent.drop t.got.length = s.sent.drop s.got.length ++ ms
  rw [h.sent, h.got, List.drop_append_of_le_length hi.got_le]

theorem retime {i : ℕ} (h : Posts s t ms) (ns : UInt64) :
    let t' : Timer := { s.timer i with dueNs := ns }
    Posts s { t with timer := Function.update t.timer i t' } ms := by
  refine { h with key := fun j => ?_, used := fun j => ?_ }
  · show (Function.update t.timer i _ j).key = (s.timer j).key
    by_cases hj : j = i
    · subst hj
      rw [Function.update_self]
      rfl
    · rw [Function.update_of_ne hj, h.key]
  · show (Function.update t.timer i _ j).used = (s.timer j).used
    by_cases hj : j = i
    · subst hj
      rw [Function.update_self]
    · rw [Function.update_of_ne hj, h.used]

theorem room (h : Posts s t ms) : s.ring.toList.length + ms.length < maxMsg := by
  have hl := t.ring.length_lt
  rw [← RingBuffer.length_toList, h.ring, List.length_append, List.length_map] at hl
  exact hl

end Posts

namespace Queue

variable (s : Queue) (clock : ℕ → UInt64)

theorem push_cases (hwnd msg w l : UInt32) (ns : UInt64) (who : Option (UInt32 × UInt32)) :
    s.ring.toList.length = maxMsg - 1 ∧ s.push hwnd msg w l ns who = (false, s) ∨
      (s.push hwnd msg w l ns who).1 = true ∧
        Posts s (s.push hwnd msg w l ns who).2 [⟨⟨hwnd, msg, w, l, stamp ns, 0, 0⟩, who⟩] := by
  cases hp : s.ring.push ⟨hwnd, msg, w, l, stamp ns, 0, 0⟩ with
  | none =>
    left
    refine ⟨(RingBuffer.push_eq_none_iff _ _).mp hp, ?_⟩
    simp only [push, hp]
  | some r =>
    right
    simp only [push, hp]
    exact ⟨trivial, rfl, RingBuffer.toList_push hp, fun _ => rfl, fun _ => rfl, rfl, rfl, rfl, rfl,
      rfl, rfl⟩

theorem pumpTimer_cases (i : ℕ) (hd : s.due (clock 0) i = true) :
    s.ring.toList.length = maxMsg - 1 ∧ Posts s (s.pumpTimer clock i) [] ∨
      Posts s (s.pumpTimer clock i) [s.timerMsg clock i] := by
  unfold pumpTimer
  rw [if_pos hd]
  dsimp only
  rcases s.push_cases (s.timer i).hwnd wmTimer (s.timer i).id (s.timer i).proc (clock (i + 1))
    (some (s.timer i).key) with ⟨hl, he⟩ | ⟨_, hp⟩
  · left
    rw [he]
    exact ⟨hl, (Posts.refl s).retime _⟩
  · exact .inr (hp.retime _)

theorem pumpTimer_timer {i j : ℕ} (h : j ≠ i) : (s.pumpTimer clock i).timer j = s.timer j := by
  unfold pumpTimer
  split
  · have hp : ∀ hw m w l ns who, (s.push hw m w l ns who).2.timer = s.timer := by
      intro hw m w l ns who
      unfold push
      dsimp only
      split <;> rfl
    show Function.update (s.push _ _ _ _ _ _).2.timer i _ j = s.timer j
    rw [Function.update_of_ne h, hp]
  · rfl

theorem pumpTimer_of_not_due {i : ℕ} (h : s.due (clock 0) i = false) :
    s.pumpTimer clock i = s := by
  unfold pumpTimer
  rw [if_neg (by rw [h]; exact Bool.false_ne_true)]

def FromTimer (e : Sent) : Prop :=
  ∃ j, j < maxTimer ∧ (s.timer j).used = true ∧ e.timer = some (s.timer j).key ∧
    e.msg.hwnd = (s.timer j).key.1

theorem foldl_pumpTimer {l : List ℕ} (hl : ∀ i ∈ l, i < maxTimer) :
    ∃ ms, Posts s (l.foldl (pumpTimer clock) s) ms ∧ ∀ e ∈ ms, s.FromTimer e := by
  induction l generalizing s with
  | nil => exact ⟨[], .refl s, nofun⟩
  | cons i l ih =>
    obtain ⟨ns, hns, hfrom⟩ := ih (s.pumpTimer clock i) fun j hj => hl j (List.mem_cons_of_mem i hj)
    have hone : ∃ ms, Posts s (s.pumpTimer clock i) ms ∧ ∀ e ∈ ms, s.FromTimer e := by
      cases hd : s.due (clock 0) i with
      | false =>
        rw [s.pumpTimer_of_not_due clock hd]
        exact ⟨[], .refl s, nofun⟩
      | true =>
        rcases s.pumpTimer_cases clock i hd with ⟨_, hp⟩ | hp
        · exact ⟨_, hp, nofun⟩
        · refine ⟨_, hp, fun e he => ?_⟩
          obtain rfl := List.mem_singleton.mp he
          have hu := (Bool.and_eq_true_iff.mp hd).1
          exact ⟨i, hl i (List.mem_cons_self ..), hu, rfl, rfl⟩
    obtain ⟨ms, hms, hfrom'⟩ := hone
    refine ⟨ms ++ ns, hms.trans hns, fun e he => ?_⟩
    rcases List.mem_append.mp he with he | he
    · exact hfrom' e he
    · obtain ⟨j, hj, hu, hk, hh⟩ := hfrom e he
      rw [hms.used] at hu
      rw [hms.key] at hk hh
      exact ⟨j, hj, hu, hk, hh⟩

theorem foldl_pumpTimer_posts {l : List ℕ} (hl : l.Nodup)
    (hr : s.ring.toList.length + (l.filter (s.due (clock 0))).length < maxMsg) :
    Posts s (l.foldl (pumpTimer clock) s)
      ((l.filter (s.due (clock 0))).map (s.timerMsg clock)) := by
  induction l generalizing s with
  | nil => exact .refl s
  | cons i l ih =>
    obtain ⟨hi, hl⟩ := List.nodup_cons.mp hl
    have hsame : ∀ j ∈ l, (s.pumpTimer clock i).timer j = s.timer j := by
      intro j hj
      exact s.pumpTimer_timer clock fun h => hi (h ▸ hj)
    -- The other slots are as due after the turn of slot `i` as before it.
    have hfilter : l.filter ((s.pumpTimer clock i).due (clock 0)) = l.filter (s.due (clock 0)) := by
      apply List.filter_congr
      intro j hj
      unfold due
      rw [hsame j hj]
    have hmap : (l.filter (s.due (clock 0))).map ((s.pumpTimer clock i).timerMsg clock) =
        (l.filter (s.due (clock 0))).map (s.timerMsg clock) := by
      apply List.map_congr_left
      intro j hj
      unfold timerMsg
      rw [hsame j (List.mem_filter.mp hj).1]
    cases hd : s.due (clock 0) i with
    | false =>
      rw [List.filter_cons_of_neg (by rw [hd]; exact Bool.false_ne_true)] at hr ⊢
      rw [List.foldl_cons, s.pumpTimer_of_not_due clock hd]
      exact ih s hl hr
    | true =>
      rw [List.filter_cons_of_pos hd] at hr ⊢
      rw [List.length_cons] at hr
      rcases s.pumpTimer_cases clock i hd with ⟨hfull, _⟩ | hp
      · omega
      · have hrest := ih (s.pumpTimer clock i) hl (by
          rw [hfilter, hp.ring, List.length_append]
          simp only [List.map_cons, List.map_nil, List.length_singleton]
          omega)
        rw [hfilter, hmap] at hrest
        exact hp.trans hrest

theorem pumpTimers_posts
    (hr : s.ring.toList.length + (s.expired clock).length < maxMsg) :
    Posts s (s.pumpTimers clock) (s.ticks clock) :=
  s.foldl_pumpTimer_posts clock List.nodup_range hr

theorem pumpTimers_of_none (h : s.expired clock = []) : s.pumpTimers clock = s := by
  have hn : ∀ l : List ℕ, (∀ i ∈ l, s.due (clock 0) i = false) →
      l.foldl (pumpTimer clock) s = s := by
    intro l hl
    induction l with
    | nil => rfl
    | cons i l ih =>
      rw [List.foldl_cons, s.pumpTimer_of_not_due clock (hl i (List.mem_cons_self ..))]
      exact ih fun j hj => hl j (List.mem_cons_of_mem i hj)
  apply hn
  intro i hi
  exact Bool.eq_false_iff.mpr (List.filter_eq_nil_iff.mp h i hi)

/-! ### Every call keeps the invariant -/

theorem pumpTimers_exists : ∃ ms, Posts s (s.pumpTimers clock) ms ∧ ∀ e ∈ ms, s.FromTimer e :=
  s.foldl_pumpTimer clock fun _ hi => List.mem_range.mp hi

variable {s clock}

theorem Inv.pumpTimers (h : s.Inv) : (s.pumpTimers clock).Inv := by
  obtain ⟨_, hp, _⟩ := pumpTimers_exists s clock
  exact hp.inv h

theorem Inv.push (h : s.Inv) (hwnd msg w l : UInt32) (ns : UInt64)
    (who : Option (UInt32 × UInt32)) : (s.push hwnd msg w l ns who).2.Inv := by
  rcases s.push_cases hwnd msg w l ns who with ⟨_, he⟩ | ⟨_, hp⟩
  · rw [he]
    exact h
  · exact hp.inv h

theorem Inv.peekCopy (h : s.Inv) (he : s.ring.isEmpty = false) (remove : Bool) :
    (s.peekCopy remove).2.Inv := by
  cases remove with
  | false => exact h
  | true =>
    refine ⟨?_, h.keys, h.quit⟩
    show s.sent.map (·.msg) = (s.got ++ [s.ring.front]) ++ s.ring.pop.toList
    rw [h.fifo, RingBuffer.toList_pop he, List.append_assoc]
    rfl

theorem Inv.tell (h : s.Inv) (remove : Bool) : (s.tell remove).Inv := by
  cases remove with
  | false => exact h
  | true => exact ⟨h.fifo, h.keys, h.quit⟩

theorem Inv.otherwise (h : s.Inv) (remove : Bool) (ns : UInt64) (last : Answer) :
    (s.otherwise remove ns last).2.Inv := by
  unfold Queue.otherwise
  split
  · exact h.tell remove
  · split <;> exact h

theorem Inv.postQuitMessage (h : s.Inv) (code : UInt32) : (s.postQuitMessage code).Inv :=
  ⟨h.fifo, h.keys, fun _ => Nat.succ_pos _, fun _ => rfl⟩

theorem timerAt_some {k : UInt32 × UInt32} {i : ℕ} (h : s.timerAt k = some i) :
    i < maxTimer ∧ (s.timer i).used = true ∧ (s.timer i).key = k := by
  have hs := List.find?_some h
  rw [Bool.and_eq_true, beq_iff_eq] at hs
  exact ⟨List.mem_range.mp (List.mem_of_find?_eq_some h), hs⟩

theorem timerAt_none {k : UInt32 × UInt32} (h : s.timerAt k = none) {i : ℕ} (hi : i < maxTimer)
    (hu : (s.timer i).used = true) : (s.timer i).key ≠ k := by
  have hn := List.find?_eq_none.mp h i (List.mem_range.mpr hi)
  rw [hu, Bool.true_and, beq_iff_eq] at hn
  exact hn

theorem timerSlot_some {k : UInt32 × UInt32} {i : ℕ} (h : s.timerSlot k = some i) :
    (s.timer i).used = true ∧ (s.timer i).key = k ∧ i < maxTimer ∨
      ∀ j, j < maxTimer → (s.timer j).used = true → (s.timer j).key ≠ k := by
  unfold timerSlot at h
  split at h
  · rename_i j hj
    obtain rfl := Option.some.inj h
    obtain ⟨hlt, hu, hk⟩ := timerAt_some hj
    exact .inl ⟨hu, hk, hlt⟩
  · rename_i hn
    exact .inr fun j hj hu => timerAt_none hn hj hu

theorem Inv.setTimer (h : s.Inv) (hwnd id elapse proc : UInt32) (now : UInt64) :
    (s.setTimer hwnd id elapse proc now).2.Inv := by
  have hslot : ∀ (u : Queue) (k : UInt32) (t : Timer) (i : ℕ), u.Inv → t.key = (hwnd, k) →
      u.timerSlot (hwnd, k) = some i →
      Inv { u with timer := Function.update u.timer i t } := by
    intro u k t i hu ht hi
    -- No other timer in use has the window and the id of the new one.
    have hother : ∀ j, j < maxTimer → j ≠ i → (u.timer j).used = true →
        (u.timer j).key ≠ (hwnd, k) := by
      intro j hj hji huj
      rcases timerSlot_some hi with ⟨hui, hki, hli⟩ | hn
      · intro hk
        exact hji (hu.keys j i hj hli huj hui (hk.trans hki.symm))
      · exact hn j hj huj
    refine ⟨hu.fifo, fun a b hla hlb hua hub hab => ?_, hu.quit⟩
    replace hua : (Function.update u.timer i t a).used = true := hua
    replace hub : (Function.update u.timer i t b).used = true := hub
    replace hab : (Function.update u.timer i t a).key = (Function.update u.timer i t b).key := hab
    by_cases ha : a = i
    · by_cases hb : b = i
      · rw [ha, hb]
      · subst ha
        rw [Function.update_self, Function.update_of_ne hb, ht] at hab
        rw [Function.update_of_ne hb] at hub
        exact absurd hab.symm (hother b hlb hb hub)
    · by_cases hb : b = i
      · subst hb
        rw [Function.update_self, Function.update_of_ne ha, ht] at hab
        rw [Function.update_of_ne ha] at hua
        exact absurd hab (hother a hla ha hua)
      · rw [Function.update_of_ne ha] at hua hab
        rw [Function.update_of_ne hb] at hub hab
        exact hu.keys a b hla hlb hua hub hab
  have hfresh : ∀ c : Prop, ∀ _ : Decidable c,
      Inv (if c then { s with nextTimerId := s.nextTimerId + 1 } else s) := by
    intro c _
    split
    · exact ⟨h.fifo, h.keys, h.quit⟩
    · exact h
  unfold Queue.setTimer
  dsimp only
  split
  · exact hfresh _ _
  · rename_i i hi
    exact hslot _ _ _ i (hfresh _ _) rfl hi

theorem Inv.killTimer (h : s.Inv) (hwnd id : UInt32) : (s.killTimer hwnd id).2.Inv := by
  unfold Queue.killTimer
  split
  · exact h
  · rename_i i _
    have hused : ∀ j, (Function.update s.timer i { s.timer i with used := false } j).used = true →
        j ≠ i ∧ (s.timer j).used = true := by
      intro j hj
      by_cases hji : j = i
      · subst hji
        rw [Function.update_self] at hj
        exact nomatch hj
      · rw [Function.update_of_ne hji] at hj
        exact ⟨hji, hj⟩
    refine ⟨h.fifo, fun a b hla hlb hua hub hab => ?_, h.quit⟩
    obtain ⟨ha, hua⟩ := hused a hua
    obtain ⟨hb, hub⟩ := hused b hub
    replace hab : (Function.update s.timer i _ a).key = (Function.update s.timer i _ b).key := hab
    rw [Function.update_of_ne ha, Function.update_of_ne hb] at hab
    exact h.keys a b hla hlb hua hub hab

theorem invalidateRect_frame (hwnd : UInt32) :
    ∃ w, s.invalidateRect hwnd = { s with win := w } := by
  have hall : ∀ (l : List ℕ) (u : Queue), (∃ w, u = { s with win := w }) →
      ∃ w, l.foldl (fun t i => if t.winPaints i then t.setPaint i true else t) u =
        { s with win := w } := by
    intro l
    induction l with
    | nil => exact fun u hu => hu
    | cons i l ih =>
      rintro u ⟨w, rfl⟩
      apply ih
      dsimp only
      split
      · exact ⟨_, rfl⟩
      · exact ⟨w, rfl⟩
  unfold invalidateRect
  split
  · exact hall _ s ⟨s.win, rfl⟩
  · split
    · exact ⟨s.win, rfl⟩
    · split
      · exact ⟨_, rfl⟩
      · exact ⟨s.win, rfl⟩

theorem validateRect_frame (hwnd : UInt32) : ∃ w, s.validateRect hwnd = { s with win := w } := by
  unfold validateRect
  split
  · exact ⟨s.win, rfl⟩
  · exact ⟨_, rfl⟩

theorem step_inv (h : s.Inv) (clock : ℕ → UInt64) (c : Call) : (s.step clock c).2.Inv := by
  have hp : (s.pumpTimers clock).Inv := h.pumpTimers
  have hwin : ∀ t : Queue, (∃ w, t = { s with win := w }) → t.Inv := by
    rintro t ⟨w, rfl⟩
    exact ⟨h.fifo, h.keys, h.quit⟩
  cases c with
  | postMessage hwnd msg w l => exact h.push hwnd msg w l _ none
  | peekMessage remove =>
    show (s.peekMessage remove clock).2.Inv
    unfold peekMessage
    dsimp only
    split
    · rename_i he
      exact hp.peekCopy he _
    · exact hp.otherwise _ _ _
  | getMessage =>
    show (s.getMessage clock).2.Inv
    unfold getMessage
    dsimp only
    split
    · rename_i he
      exact hp.peekCopy he _
    · exact hp.otherwise _ _ _
  | modalPump =>
    show (s.modalPump clock).2.Inv
    unfold modalPump
    dsimp only
    split
    · rename_i he
      exact hp.peekCopy he _
    · dsimp only
      exact hp
  | setTimer hwnd id elapse proc => exact h.setTimer hwnd id elapse proc _
  | killTimer hwnd id => exact h.killTimer hwnd id
  | postQuitMessage code => exact h.postQuitMessage code
  | invalidateRect hwnd => exact hwin _ (invalidateRect_frame hwnd)
  | validateRect hwnd => exact hwin _ (validateRect_frame hwnd)
  | window i w => exact hwin _ ⟨Function.update s.win i w, rfl⟩

end Queue

end Aret.Pump
