/-
Exact delivery, as what each call of a run does to the history.

The timers are the weak side: every call that looks for a message lets them post,
though a WM_TIMER of the same timer is still in the ring, though the ring is full,
and though the call is a peek that should change nothing.  The other is the flag of
WM_QUIT, which no delivery clears.

* `delivery_exact_iff` — each step of a run is exact exactly when each step finds
  such a state; `delivery_exact_not` — a loop ended by an old WM_QUIT, and a
  timer with two messages in the ring.
-/
import Aret.MsgPump
import Aret.Runs

namespace Aret.Pump

/-! ### What the calls have to do -/

def Call.retrieves : Call → Option Bool
  | .peekMessage remove => some (remove &&& pmRemove != 0)
  | .getMessage => some true
  | .modalPump => some true
  | _ => none

def Call.ringOnly : Call → Bool
  | .modalPump => true
  | _ => false

def Call.quits : Call → ℕ
  | .postQuitMessage _ => 1
  | _ => 0

/-- The messages of the ring that a call finds: the expired timers have posted. -/
def Queue.pending (s : Queue) (clock : ℕ → UInt64) : List Sent := s.undelivered ++ s.ticks clock

/-- A call `c` looks for a message, and from `s` it answers `a` and leaves `s'`. -/
structure Retrieves (s : Queue) (clock : ℕ → UInt64) (c : Call) (remove : Bool) (a : Answer)
    (s' : Queue) : Prop where
  sent : s'.sent = s.sent ++ s.ticks clock
  /-- Each timer has at most one WM_TIMER that is not delivered. -/
  timers : ∀ k, ((s.pending clock).filter fun e => e.timer = some k).length ≤ 1
  /-- The messages of the ring come first, in their order. -/
  first : ∀ e rest, s.pending clock = e :: rest →
    a = .message e.msg ∧ s'.got = s.got ++ (if remove then [e.msg] else []) ∧ s'.told = s.told
  others : s.pending clock = [] → (∀ m, a ≠ .message m) ∧ s'.got = s.got
  /-- WM_QUIT comes next, once for each call that asked for it. -/
  quit : ∀ m, a = .quit m → s.pending clock = [] ∧ s.told < s.asked ∧
    (∃ ns, m = s.fillQuit ns) ∧ s'.told = s.told + (if remove then 1 else 0)
  asked : c.ringOnly = false → s.pending clock = [] → s.told < s.asked → ∃ m, a = .quit m
  /-- WM_PAINT comes last. -/
  paint : ∀ m, a = .paint m → s.pending clock = [] ∧ s.asked ≤ s.told ∧
    ∃ i ns, s.nextPaint = some i ∧ m = fillPaint i ns
  untold : (∀ m, a ≠ .quit m) → s'.told = s.told

/-- Exact delivery at a call, but for peeks that should change nothing. -/
structure Delivers (s : Queue) (clock : ℕ → UInt64) (c : Call) (a : Answer) (s' : Queue) :
    Prop where
  /-- What was removed is what entered first, each message once. -/
  inOrder : s'.got <+: s'.sent.map (·.msg)
  asks : s'.asked = s.asked + c.quits
  once : s'.told ≤ s'.asked
  /-- A post enters at the end, or is refused by a full ring and changes nothing. -/
  posts : ∀ hwnd msg w l, c = .postMessage hwnd msg w l →
    a = .result 1 ∧ s'.got = s.got ∧ s'.told = s.told ∧
        s'.sent = s.sent ++ [⟨⟨hwnd, msg, w, l, stamp (clock 0), 0, 0⟩, none⟩] ∨
      a = .result 0 ∧ s.undelivered.length = maxMsg - 1 ∧ s' = s
  /-- No other call that looks for no message changes what is in the ring. -/
  others : c.retrieves = none → (∀ hwnd msg w l, c ≠ .postMessage hwnd msg w l) →
    s'.sent = s.sent ∧ s'.got = s.got ∧ s'.told = s.told
  retrieves : ∀ remove, c.retrieves = some remove → Retrieves s clock c remove a s'

def Unseen (c : Call) (s s' : Queue) : Prop := c.retrieves = some false → s' = s

/-- The state in which a call finds the queue when delivery goes well: no timer that expires has an
undelivered WM_TIMER, there is room for all that expire, and WM_QUIT was not yet delivered, or it is
not its turn. -/
def Ready (s : Queue) (clock : ℕ → UInt64) (c : Call) : Prop :=
  c.retrieves ≠ none →
    (∀ i ∈ s.expired clock, ∀ e ∈ s.undelivered, e.timer ≠ some (s.timer i).key) ∧
    s.undelivered.length + (s.expired clock).length < maxMsg ∧
    (c.ringOnly = false → s.undelivered = [] → s.expired clock = [] → s.asked ≤ s.told →
      s.asked = 0)

def Quiet (s : Queue) (clock : ℕ → UInt64) (c : Call) : Prop :=
  c.retrieves = some false → s.expired clock = []

/-! ### The calls that look for a message -/

namespace Queue

variable {s : Queue} {clock : ℕ → UInt64} {c : Call} {remove : Bool}

variable (s clock) in
theorem step_retrieves (hc : c.retrieves = some remove) :
    ∃ ns last, (last = .nothing ∨ ∃ b, last = .waits b) ∧
      s.step clock c =
        let p := s.pumpTimers clock
        if p.ring.isEmpty = false then p.peekCopy remove
        else if c.ringOnly then (last, p) else p.otherwise remove ns last := by
  cases c with
  | peekMessage r =>
    obtain rfl := Option.some.inj hc
    refine ⟨clock (maxTimer + 1), .nothing, .inl rfl, ?_⟩
    simp only [step, peekMessage, Call.ringOnly, Bool.false_eq_true, if_false]
  | getMessage =>
    obtain rfl := Option.some.inj hc
    refine ⟨clock (maxTimer + 1), _, .inr ⟨!(s.pumpTimers clock).anyTimer, rfl⟩, ?_⟩
    simp only [step, getMessage, Call.ringOnly, Bool.false_eq_true, if_false]
  | modalPump =>
    obtain rfl := Option.some.inj hc
    refine ⟨0, _, .inr ⟨true, rfl⟩, ?_⟩
    simp only [step, modalPump, Call.ringOnly, if_true]
  | postMessage | setTimer | killTimer | postQuitMessage | invalidateRect | validateRect
  | window => exact nomatch hc

theorem ticks_eq_nil : s.ticks clock = [] ↔ s.expired clock = [] := List.map_eq_nil_iff

theorem length_ticks : (s.ticks clock).length = (s.expired clock).length := List.length_map _

theorem pending_eq_nil :
    s.pending clock = [] ↔ s.undelivered = [] ∧ s.expired clock = [] := by
  rw [pending, List.append_eq_nil_iff, ticks_eq_nil]

theorem Inv.undelivered_cons (h : s.Inv) (he : s.ring.isEmpty = false) :
    ∃ e rest, s.undelivered = e :: rest ∧ e.msg = s.ring.front := by
  have hm := h.undelivered_map
  rw [RingBuffer.toList_pop he] at hm
  obtain ⟨e, rest, hu, hf, _⟩ := List.map_eq_cons_iff.mp hm
  exact ⟨e, rest, hu, hf⟩

theorem Inv.undelivered_nil (h : s.Inv) (he : s.ring.isEmpty = true) : s.undelivered = [] := by
  have hm := h.undelivered_map
  rw [(RingBuffer.isEmpty_iff _).mp he] at hm
  exact List.map_eq_nil_iff.mp hm

/-- What a call that looks for a message can come to once the timers have posted. -/
inductive Outcome (p : Queue) (c : Call) (remove : Bool) : Answer × Queue → Prop
  | message (e rest s') (hu : p.undelivered = e :: rest)
      (hgot : s'.got = p.got ++ if remove then [e.msg] else []) (hsent : s'.sent = p.sent)
      (htold : s'.told = p.told) (hasked : s'.asked = p.asked)
      (hsame : remove = false → s' = p) :
      Outcome p c remove (.message e.msg, s')
  | quit (ns) (hu : p.undelivered = []) (hr : c.ringOnly = false) (hq : p.quit = true) :
      Outcome p c remove (.quit (p.fillQuit ns), p.tell remove)
  | paint (i ns) (hu : p.undelivered = []) (hq : p.quit = false) (hn : p.nextPaint = some i) :
      Outcome p c remove (.paint (fillPaint i ns), p)
  | none (a) (hu : p.undelivered = []) (hq : c.ringOnly = false → p.quit = false)
      (ha : a = .nothing ∨ ∃ b, a = .waits b) : Outcome p c remove (a, p)

variable (clock) in
theorem outcome (hc : c.retrieves = some remove) (hi : (s.pumpTimers clock).Inv) :
    Outcome (s.pumpTimers clock) c remove (s.step clock c) := by
  obtain ⟨ns, last, hlast, hstep⟩ := step_retrieves s clock hc
  rw [hstep]
  dsimp only
  generalize s.pumpTimers clock = p at hi
  cases he : p.ring.isEmpty with
  | false =>
    obtain ⟨e, rest, hu, hf⟩ := hi.undelivered_cons he
    rw [if_pos rfl, peekCopy, ← hf]
    refine .message e rest _ hu ?_ ?_ ?_ ?_ fun h => if_neg (by rw [h]; nofun)
    · split
      · rfl
      · exact (List.append_nil _).symm
    · split <;> rfl
    · split <;> rfl
    · split <;> rfl
  | true =>
    have hu := hi.undelivered_nil he
    rw [if_neg (by nofun)]
    cases hr : c.ringOnly with
    | true =>
      rw [if_pos rfl]
      exact .none last hu (fun h => nomatch hr.symm.trans h) hlast
    | false =>
      rw [if_neg (by nofun), otherwise]
      cases hq : p.quit with
      | true =>
        rw [if_pos rfl]
        exact .quit ns hu hr hq
      | false =>
        rw [if_neg (by nofun)]
        cases hn : p.nextPaint with
        | some i => exact .paint i ns hu hq hn
        | none => exact .none last hu (fun _ => hq) hlast

theorem tell_told (p : Queue) : (p.tell remove).told = p.told + if remove then 1 else 0 := by
  unfold tell
  split <;> rfl

variable (remove) in
theorem tell_frame (p : Queue) : (p.tell remove).sent = p.sent ∧ (p.tell remove).got = p.got ∧
    (p.tell remove).asked = p.asked := by
  unfold tell
  split <;> exact ⟨rfl, rfl, rfl⟩

theorem Outcome.sent {p : Queue} {r : Answer × Queue} (h : Outcome p c remove r) :
    r.2.sent = p.sent := by
  cases h with
  | message e rest s' hu hgot hsent htold hasked hsame => exact hsent
  | quit ns hu hr hq => exact (tell_frame remove p).1
  | paint i ns hu hq hn => rfl
  | none a hu hq ha => rfl

theorem Outcome.asked {p : Queue} {r : Answer × Queue} (h : Outcome p c remove r) :
    r.2.asked = p.asked := by
  cases h with
  | message e rest s' hu hgot hsent htold hasked hsame => exact hasked
  | quit ns hu hr hq => exact (tell_frame remove p).2.2
  | paint i ns hu hq hn => rfl
  | none a hu hq ha => rfl

theorem retrieves_of_outcome {p : Queue} {r : Answer × Queue} (hi : s.Inv)
    (hp : Posts s p (s.ticks clock)) (ho : Outcome p c remove r)
    (ht : ∀ k, ((s.pending clock).filter fun e => e.timer = some k).length ≤ 1)
    (hq : c.ringOnly = false → s.pending clock = [] → s.asked ≤ s.told → s.asked = 0) :
    Retrieves s clock c remove r.1 r.2 := by
  have hu : p.undelivered = s.pending clock := hp.undelivered hi
  have hpaint : p.nextPaint = s.nextPaint := by
    unfold nextPaint winPaints
    rw [hp.win]
  have hnone : p.undelivered = [] → ∀ e rest, s.pending clock = e :: rest → False := by
    intro h e rest hc
    exact nomatch (hu.symm.trans h).symm.trans hc
  cases ho with
  | message e rest s' hcons hgot hsent htold hasked hsame =>
    rw [hu] at hcons
    have hne : s.pending clock ≠ [] := by
      rw [hcons]
      exact List.cons_ne_nil e rest
    rw [hp.got] at hgot
    rw [hp.told] at htold
    refine ⟨hsent.trans hp.sent, ht, ?_, fun h => absurd h hne, nofun, fun _ h => absurd h hne,
      nofun, fun _ => htold⟩
    intro e' rest' hcons'
    obtain ⟨rfl, rfl⟩ := List.cons.inj (hcons.symm.trans hcons')
    exact ⟨rfl, hgot, htold⟩
  | quit ns hnil hr hquit =>
    -- The flag is set, so some call asked for WM_QUIT, and one of them is still to be told.
    have hasked : 0 < s.asked := by
      rw [hp.quit] at hquit
      exact hi.quit.mp hquit
    have hlt : s.told < s.asked := by
      by_contra hge
      have h0 := hq hr (hu.symm.trans hnil) (Nat.le_of_not_lt hge)
      omega
    obtain ⟨hsent, hgot, _⟩ := tell_frame remove p
    have htold : (p.tell remove).told = s.told + if remove then 1 else 0 := by
      rw [tell_told, hp.told]
    refine ⟨hsent.trans hp.sent, ht, fun e rest h => (hnone hnil e rest h).elim,
      fun _ => ⟨nofun, hgot.trans hp.got⟩, ?_, fun _ _ _ => ⟨_, rfl⟩, nofun,
      fun h => absurd rfl (h _)⟩
    intro m hm
    refine ⟨hu.symm.trans hnil, hlt, ⟨ns, ?_⟩, htold⟩
    rw [← Answer.quit.inj hm, fillQuit, hp.quitCode, fillQuit]
  | paint i ns hnil hquit hn =>
    have hasked : s.asked = 0 := by
      rw [hp.quit] at hquit
      by_contra h0
      exact nomatch hquit.symm.trans (hi.quit.mpr (Nat.pos_of_ne_zero h0))
    refine ⟨hp.sent, ht, fun e rest h => (hnone hnil e rest h).elim,
      fun _ => ⟨nofun, hp.got⟩, nofun, fun _ _ hlt => by omega, ?_, fun _ => hp.told⟩
    intro m hm
    exact ⟨hu.symm.trans hnil, by omega, i, ns, hpaint ▸ hn, (Answer.paint.inj hm).symm⟩
  | none a hnil hquit ha =>
    have hasked : c.ringOnly = false → s.asked = 0 := by
      intro hr
      have hf := hquit hr
      rw [hp.quit] at hf
      by_contra h0
      exact nomatch hf.symm.trans (hi.quit.mpr (Nat.pos_of_ne_zero h0))
    have hno : (∀ m, a ≠ .message m) ∧ (∀ m, a ≠ .quit m) ∧ ∀ m, a ≠ .paint m := by
      rcases ha with rfl | ⟨b, rfl⟩
      · exact ⟨nofun, nofun, nofun⟩
      · exact ⟨nofun, nofun, nofun⟩
    refine ⟨hp.sent, ht, fun e rest h => (hnone hnil e rest h).elim,
      fun _ => ⟨hno.1, hp.got⟩, fun m hm => absurd hm (hno.2.1 m), ?_,
      fun m hm => absurd hm (hno.2.2 m), fun _ => hp.told⟩
    intro hr _ hlt
    have h0 := hasked hr
    omega

/-! ### One WM_TIMER for each timer -/

theorem length_le_one {α : Type*} {l : List α} (hn : l.Nodup) (h : ∀ x ∈ l, ∀ y ∈ l, x = y) :
    l.length ≤ 1 := by
  match l with
  | [] => exact Nat.zero_le 1
  | [_] => exact Nat.le_refl 1
  | x :: y :: l =>
    have hxy := h x (List.mem_cons_self ..) y (List.mem_cons_of_mem x (List.mem_cons_self ..))
    exact absurd hxy fun he => (List.nodup_cons.mp hn).1 (he ▸ List.mem_cons_self ..)

theorem mem_expired {i : ℕ} (h : i ∈ s.expired clock) :
    i < maxTimer ∧ (s.timer i).used = true := by
  obtain ⟨hr, hd⟩ := List.mem_filter.mp h
  exact ⟨List.mem_range.mp hr, (Bool.and_eq_true_iff.mp hd).1⟩

variable (clock) in
theorem Inv.ticks_le_one (hi : s.Inv) (k : UInt32 × UInt32) :
    ((s.ticks clock).filter fun e => e.timer = some k).length ≤ 1 := by
  rw [ticks, List.filter_map, List.length_map]
  apply length_le_one
  · exact (List.nodup_range.filter _).filter _
  · intro i hi' j hj
    obtain ⟨hie, hik⟩ := List.mem_filter.mp hi'
    obtain ⟨hje, hjk⟩ := List.mem_filter.mp hj
    have hki : (s.timer i).key = k := Option.some.inj (of_decide_eq_true hik)
    have hkj : (s.timer j).key = k := Option.some.inj (of_decide_eq_true hjk)
    obtain ⟨hil, hiu⟩ := mem_expired hie
    obtain ⟨hjl, hju⟩ := mem_expired hje
    exact hi.keys i j hil hjl hiu hju (hki.trans hkj.symm)

theorem Inv.pending_le_one (hi : s.Inv)
    (hu : ∀ k, (s.undelivered.filter fun e => e.timer = some k).length ≤ 1)
    (hn : ∀ i ∈ s.expired clock, ∀ e ∈ s.undelivered, e.timer ≠ some (s.timer i).key)
    (k : UInt32 × UInt32) : ((s.pending clock).filter fun e => e.timer = some k).length ≤ 1 := by
  rw [pending, List.filter_append, List.length_append]
  have ht := hi.ticks_le_one clock k
  rcases Nat.eq_zero_or_pos ((s.ticks clock).filter fun e => e.timer = some k).length with h0 | h1
  · rw [h0]
    exact hu k
  · -- The timer expires, so nothing that it posted before is left.
    obtain ⟨e, he⟩ := List.exists_mem_of_length_pos h1
    obtain ⟨het, hek⟩ := List.mem_filter.mp he
    obtain ⟨i, hie, rfl⟩ := List.mem_map.mp het
    have hki : some (s.timer i).key = some k := of_decide_eq_true hek
    have hnone : (s.undelivered.filter fun e => e.timer = some k) = [] := by
      apply List.filter_eq_nil_iff.mpr
      intro d hd hdk
      exact hn i hie d hd ((of_decide_eq_true hdk).trans hki.symm)
    rw [hnone, List.length_nil]
    omega

theorem two_le_pending {i : ℕ} (hi : i ∈ s.expired clock) {e : Sent} (he : e ∈ s.undelivered)
    (hk : e.timer = some (s.timer i).key) :
    2 ≤ ((s.pending clock).filter fun d => d.timer = some (s.timer i).key).length := by
  rw [pending, List.filter_append, List.length_append]
  have hold : 0 < (s.undelivered.filter fun d => d.timer = some (s.timer i).key).length :=
    List.length_pos_of_mem (List.mem_filter.mpr ⟨he, decide_eq_true hk⟩)
  have hnew : 0 < ((s.ticks clock).filter fun d => d.timer = some (s.timer i).key).length :=
    List.length_pos_of_mem
      (List.mem_filter.mpr ⟨List.mem_map_of_mem hi, decide_eq_true rfl⟩)
  omega

/-! ### Calls that look for no message -/

theorem setTimer_frame (hwnd id elapse proc : UInt32) (now : UInt64) :
    let t := (s.setTimer hwnd id elapse proc now).2
    t.sent = s.sent ∧ t.got = s.got ∧ t.told = s.told ∧ t.asked = s.asked := by
  unfold setTimer
  dsimp only
  split <;> split <;> exact ⟨rfl, rfl, rfl, rfl⟩

theorem killTimer_frame (hwnd id : UInt32) :
    let t := (s.killTimer hwnd id).2
    t.sent = s.sent ∧ t.got = s.got ∧ t.told = s.told ∧ t.asked = s.asked := by
  unfold killTimer
  split <;> exact ⟨rfl, rfl, rfl, rfl⟩

variable (s clock) in
theorem step_others (hc : c.retrieves = none) (hp : ∀ hwnd msg w l, c ≠ .postMessage hwnd msg w l) :
    (s.step clock c).2.sent = s.sent ∧ (s.step clock c).2.got = s.got ∧
      (s.step clock c).2.told = s.told ∧ (s.step clock c).2.asked = s.asked + c.quits := by
  have hwin : ∀ t : Queue, (∃ w, t = { s with win := w }) →
      t.sent = s.sent ∧ t.got = s.got ∧ t.told = s.told ∧ t.asked = s.asked := by
    rintro t ⟨w, rfl⟩
    exact ⟨rfl, rfl, rfl, rfl⟩
  cases c with
  | postMessage hwnd msg w l => exact absurd rfl (hp hwnd msg w l)
  | peekMessage | getMessage | modalPump => exact nomatch hc
  | setTimer hwnd id elapse proc => exact setTimer_frame hwnd id elapse proc (clock 0)
  | killTimer hwnd id => exact killTimer_frame hwnd id
  | postQuitMessage code => exact ⟨rfl, rfl, rfl, rfl⟩
  | invalidateRect hwnd => exact hwin _ (invalidateRect_frame hwnd)
  | validateRect hwnd => exact hwin _ (validateRect_frame hwnd)
  | window i w => exact ⟨rfl, rfl, rfl, rfl⟩

/-! ### Steps -/

/-- What also holds while every call is exact. -/
structure Held (s : Queue) : Prop where
  timers : ∀ k, (s.undelivered.filter fun e => e.timer = some k).length ≤ 1
  told : s.told ≤ s.asked

theorem held_start : Held start where
  timers _ := Nat.zero_le 1
  told := Nat.le_refl 0

theorem posts_of_ready (hi : s.Inv) (hl : s.undelivered.length + (s.expired clock).length < maxMsg) :
    Posts s (s.pumpTimers clock) (s.ticks clock) := by
  rw [hi.length_undelivered] at hl
  exact s.pumpTimers_posts clock hl

variable (clock) in
theorem step_post (hi : s.Inv) (hwnd msg w l : UInt32) :
    let r := s.step clock (.postMessage hwnd msg w l)
    r.2.told = s.told ∧ r.2.asked = s.asked ∧
      (r.1 = .result 1 ∧ r.2.got = s.got ∧ r.2.told = s.told ∧
          r.2.sent = s.sent ++ [⟨⟨hwnd, msg, w, l, stamp (clock 0), 0, 0⟩, none⟩] ∨
        r.1 = .result 0 ∧ s.undelivered.length = maxMsg - 1 ∧ r.2 = s) := by
  dsimp only [step]
  rcases s.push_cases hwnd msg w l (clock 0) none with ⟨hl, he⟩ | ⟨h1, hp⟩
  · rw [he]
    exact ⟨rfl, rfl, .inr ⟨rfl, hi.length_undelivered.trans hl, rfl⟩⟩
  · rw [h1]
    exact ⟨hp.told, hp.asked, .inl ⟨rfl, hp.got, hp.told, hp.sent⟩⟩

theorem delivers_of_ready (hi : s.Inv) (hh : s.Held) (h : Ready s clock c) :
    Delivers s clock c (s.step clock c).1 (s.step clock c).2 := by
  have horder : (s.step clock c).2.got <+: (s.step clock c).2.sent.map (·.msg) := by
    rw [(step_inv hi clock c).fifo]
    exact List.prefix_append _ _
  have htold := hh.told
  cases hc : c.retrieves with
  | some remove =>
    obtain ⟨hkey, hroom, hquit⟩ := h (by rw [hc]; nofun)
    have hp := posts_of_ready hi hroom
    have ho := outcome clock hc (hp.inv hi)
    have hr := retrieves_of_outcome hi hp ho (hi.pending_le_one hh.timers hkey)
      fun hr hn => hquit hr (pending_eq_nil.mp hn).1 (pending_eq_nil.mp hn).2
    have hasked : (s.step clock c).2.asked = s.asked := ho.asked.trans hp.asked
    refine ⟨horder, ?_, ?_, ?_, fun hn _ => (nomatch hc.symm.trans hn), fun r hr' => ?_⟩
    · rw [hasked]
      cases c <;> first | rfl | exact nomatch hc
    · rw [hasked]
      by_cases hq : ∃ m, (s.step clock c).1 = .quit m
      · obtain ⟨m, hm⟩ := hq
        obtain ⟨_, hlt, _, ht⟩ := hr.quit m hm
        rw [ht]
        split <;> omega
      · rw [hr.untold fun m hm => hq ⟨m, hm⟩]
        exact htold
    · rintro hwnd msg w l rfl
      exact nomatch hc
    · obtain rfl := Option.some.inj (hc.symm.trans hr')
      exact hr
  | none =>
    by_cases hpost : ∃ hwnd msg w l, c = .postMessage hwnd msg w l
    · obtain ⟨hwnd, msg, w, l, rfl⟩ := hpost
      obtain ⟨ht, ha, hres⟩ := step_post clock hi hwnd msg w l
      refine ⟨horder, ha, by rw [ht, ha]; exact htold, ?_,
        fun _ hn => absurd rfl (hn hwnd msg w l), nofun⟩
      intro hwnd' msg' w' l' he
      obtain ⟨rfl, rfl, rfl, rfl⟩ := Call.postMessage.inj he
      exact hres
    · have hn : ∀ hwnd msg w l, c ≠ .postMessage hwnd msg w l :=
        fun hwnd msg w l he => hpost ⟨hwnd, msg, w, l, he⟩
      obtain ⟨hsent, hgot, ht, ha⟩ := step_others s clock hc hn
      refine ⟨horder, ha, by rw [ht, ha]; omega, fun hwnd msg w l he => absurd he (hn hwnd msg w l),
        fun _ _ => ⟨hsent, hgot, ht⟩, fun r hr => nomatch hc.symm.trans hr⟩

theorem ready_of_delivers (hi : s.Inv)
    (h : Delivers s clock c (s.step clock c).1 (s.step clock c).2) : Ready s clock c := by
  intro hc
  obtain ⟨remove, hc⟩ := Option.ne_none_iff_exists'.mp hc
  have hr := h.retrieves remove hc
  obtain ⟨ms, hp, _⟩ := pumpTimers_exists s clock
  have ho := outcome clock hc (hp.inv hi)
  -- What the timers posted is all that they had to post.
  have hms : ms = s.ticks clock := by
    have hsent := ho.sent.trans hp.sent
    rw [hr.sent] at hsent
    exact (List.append_cancel_left hsent).symm
  rw [hms] at hp
  refine ⟨?_, ?_, ?_⟩
  · intro i hie e he hk
    have htwo := two_le_pending hie he hk
    have hone := hr.timers (s.timer i).key
    omega
  · have hroom := hp.room
    rw [length_ticks] at hroom
    rw [hi.length_undelivered]
    exact hroom
  · intro hring hu hx hle
    by_contra h0
    have hquit : (s.pumpTimers clock).quit = true := by
      rw [hp.quit]
      exact hi.quit.mpr (Nat.pos_of_ne_zero h0)
    have hnil : (s.pumpTimers clock).undelivered = [] := by
      rw [hp.undelivered hi]
      exact pending_eq_nil.mpr ⟨hu, hx⟩
    generalize hres : s.step clock c = r at hr ho
    generalize s.pumpTimers clock = p at hquit hnil ho
    cases ho with
    | message e rest s' hcons hgot hsent htold hasked hsame =>
      exact nomatch hnil.symm.trans hcons
    | quit ns hn hro hq =>
      obtain ⟨_, hlt, _⟩ := hr.quit _ rfl
      omega
    | paint i ns hn hq hp => exact nomatch hquit.symm.trans hq
    | none a hn hq ha => exact nomatch hquit.symm.trans (hq hring)

theorem held_of_delivers (hi : s.Inv) (hh : s.Held)
    (h : Delivers s clock c (s.step clock c).1 (s.step clock c).2) : (s.step clock c).2.Held := by
  refine ⟨?_, h.once⟩
  intro k
  generalize hres : (s.step clock c).2 = s' at h
  cases hc : c.retrieves with
  | some remove =>
    have hr := h.retrieves remove hc
    -- What is left is what the call found, or that without its first message.
    have hsub : s'.undelivered.Sublist (s.pending clock) := by
      have hp : s.pending clock = (s.sent ++ s.ticks clock).drop s.got.length := by
        rw [List.drop_append_of_le_length hi.got_le]
        rfl
      have hg : ∃ n, s'.got.length = s.got.length + n := by
        cases hcons : s.pending clock with
        | nil => exact ⟨0, congrArg List.length (hr.others hcons).2⟩
        | cons e rest =>
          rw [(hr.first e rest hcons).2.1, List.length_append]
          exact ⟨_, rfl⟩
      obtain ⟨n, hn⟩ := hg
      rw [undelivered, hr.sent, hn, ← List.drop_drop, ← hp]
      exact List.drop_sublist n _
    exact Nat.le_trans (hsub.filter _).length_le (hr.timers k)
  | none =>
    by_cases hpost : ∃ hwnd msg w l, c = .postMessage hwnd msg w l
    · obtain ⟨hwnd, msg, w, l, hcall⟩ := hpost
      rcases h.posts hwnd msg w l hcall with ⟨_, hgot, _, hsent⟩ | ⟨_, _, hsame⟩
      · rw [undelivered, hsent, hgot, List.drop_append_of_le_length hi.got_le, List.filter_append]
        exact Nat.le_trans (Nat.le_of_eq (congrArg List.length (List.append_nil _))) (hh.timers k)
      · rw [hsame]
        exact hh.timers k
    · obtain ⟨hsent, hgot, _⟩ := h.others hc fun hwnd msg w l he => hpost ⟨hwnd, msg, w, l, he⟩
      rw [undelivered, hsent, hgot]
      exact hh.timers k

theorem unseen_iff (hi : s.Inv) (hd : Delivers s clock c (s.step clock c).1 (s.step clock c).2) :
    Unseen c s (s.step clock c).2 ↔ Quiet s clock c := by
  constructor
  · intro h hc
    have hsent := (hd.retrieves false hc).sent
    rw [h hc] at hsent
    exact ticks_eq_nil.mp (List.append_right_eq_self.mp hsent.symm)
  · intro h hc
    have hp := s.pumpTimers_of_none clock (h hc)
    have ho := outcome clock hc (by rw [hp]; exact hi)
    rw [hp] at ho
    generalize s.step clock c = r at ho
    cases ho with
    | message e rest s' hcons hgot hsent htold hasked hsame => exact hsame rfl
    | quit ns hn hro hq => rfl
    | paint i ns hn hq hp => rfl
    | none a hn hq ha => rfl

end Queue

/-! ### Runs -/

/-- A call of a run, with what the clock answers during it. -/
structure Ev where
  call : Call
  clock : ℕ → UInt64

def next (s : Queue) (e : Ev) : Queue := (s.step e.clock e.call).2

def Forward (es : List Ev) : Prop :=
  (∀ e ∈ es, ∀ i j, i ≤ j → e.clock i ≤ e.clock j) ∧
    es.Pairwise fun d e => ∀ i j, d.clock i ≤ e.clock j

def DeliversAt (s : Queue) (e : Ev) : Prop :=
  Delivers s e.clock e.call (s.step e.clock e.call).1 (next s e)

def ReadyAt (s : Queue) (e : Ev) : Prop := Ready s e.clock e.call

def ExactAt (s : Queue) (e : Ev) : Prop := DeliversAt s e ∧ Unseen e.call s (next s e)

def MeetsAt (s : Queue) (e : Ev) : Prop := ReadyAt s e ∧ Quiet s e.clock e.call

theorem run_queue_inv (es : List Ev) : (Runs.run next Queue.start es).Inv :=
  Runs.run_inv Queue.inv_start (fun _ e h => Queue.step_inv h e.clock e.call) es

/-- The calls of a run are exact exactly when each of them is ready to be; whatever the clock does,
and however often the indices of the ring wrap. -/
theorem delivery_exact_iff (es : List Ev) :
    (Runs.Each next Queue.start DeliversAt es ↔ Runs.Each next Queue.start ReadyAt es) ∧
      (Runs.Each next Queue.start ExactAt es ↔ Runs.Each next Queue.start MeetsAt es) := by
  constructor
  · refine Runs.each_iff (I := Queue.Inv) (H := Queue.Held) run_queue_inv Queue.held_start ?_ ?_ ?_ es
    · intro s e hi hh h
      exact Queue.held_of_delivers hi hh h
    · intro s e hi h
      exact Queue.ready_of_delivers hi h
    · intro s e hi hh h
      exact Queue.delivers_of_ready hi hh h
  · refine Runs.each_iff (I := Queue.Inv) (H := Queue.Held) run_queue_inv Queue.held_start ?_ ?_ ?_ es
    · intro s e hi hh h
      exact Queue.held_of_delivers hi hh h.1
    · intro s e hi h
      exact ⟨Queue.ready_of_delivers hi h.1, (Queue.unseen_iff hi h.1).mp h.2⟩
    · intro s e hi hh h
      have hd := Queue.delivers_of_ready hi hh h.1
      exact ⟨hd, (Queue.unseen_iff hi hd).mpr h.2⟩

def during (ns : UInt64) (c : Call) : Ev := ⟨c, fun _ => ns⟩

def secondLoop : List Ev :=
  [during 0 (.postQuitMessage 0), during 0 .getMessage, during 0 .getMessage]

def twoTicks : List Ev :=
  [during 0 (.setTimer 1 1 10 0), during 10000000 (.peekMessage 0),
    during 20000000 (.peekMessage 0)]

theorem forward_during {l : List (UInt64 × Call)} (h : l.Pairwise fun p q => p.1 ≤ q.1) :
    Forward (l.map fun p => during p.1 p.2) := by
  constructor
  · intro e he i j _
    obtain ⟨p, _, rfl⟩ := List.mem_map.mp he
    exact UInt64.le_refl p.1
  · exact List.pairwise_map.mpr (h.imp fun hpq _ _ => hpq)

/-- The second loop is ended by the WM_QUIT of the first; the ring holds two messages of one timer,
and the first of the peeks let it post. -/
theorem delivery_exact_not :
    (Forward secondLoop ∧ ¬ Runs.Each next Queue.start DeliversAt secondLoop) ∧
      (Forward twoTicks ∧ ¬ Runs.Each next Queue.start DeliversAt twoTicks) ∧
      ¬ Unseen (.peekMessage 0) (Runs.run next Queue.start (twoTicks.take 1))
          (Runs.run next Queue.start (twoTicks.take 2)) := by
  refine ⟨⟨?_, ?_⟩, ⟨?_, ?_⟩, ?_⟩
  · exact forward_during (l := [(0, .postQuitMessage 0), (0, .getMessage), (0, .getMessage)])
      (by decide)
  · intro h
    have hlast := h (secondLoop.take 2) (during 0 .getMessage) [] rfl
    have hq := (hlast.retrieves true rfl).quit ⟨0, wmQuit, 0, 0, 0, 0, 0⟩ (by decide +kernel)
    exact absurd hq.2.1 (by decide +kernel)
  · exact forward_during (l := [(0, .setTimer 1 1 10 0), (10000000, .peekMessage 0),
      (20000000, .peekMessage 0)]) (by decide)
  · intro h
    have hlast := h (twoTicks.take 2) (during 20000000 (.peekMessage 0)) [] rfl
    have ht := (hlast.retrieves false rfl).timers (1, 1)
    exact absurd ht (by decide +kernel)
  · intro h
    have hs := congrArg Queue.sent (h rfl)
    exact absurd hs (by decide +kernel)

end Aret.Pump
