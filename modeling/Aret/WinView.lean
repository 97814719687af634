/-
The tables as a collection of windows: each call is for one window what `Table.eff`
says it is, and nothing else about a window changes.
-/
import Aret.WinTable

namespace Aret.Wnd

namespace Table

variable {s t : Table} {clock : ℕ → UInt64} {c : Call} {i j : ℕ} {h : UInt32} {k : Text}

/-! ### Handles -/

theorem handle_toNat (hi : i < maxWin) : (handle i).toNat = i + 1 := by
  have hlt : i < 256 := hi
  show (i.toUInt32 + 1).toNat = i + 1
  rw [UInt32.toNat_add]
  have hn : i.toUInt32.toNat = i := by
    rw [Nat.toUInt32, UInt32.toNat_ofNat']
    omega
  rw [hn]
  show (i + 1) % 4294967296 = i + 1
  omega

theorem handle_inj (hi : i < maxWin) (hj : j < maxWin) (he : handle i = handle j) : i = j := by
  have hn := congrArg UInt32.toNat he
  rw [handle_toNat hi, handle_toNat hj] at hn
  omega

theorem freeWin_some (he : s.freeWin = some i) : i < maxWin ∧ (s.win i).used = false := by
  have hf := List.find?_some he
  exact ⟨List.mem_range.mp (List.mem_of_find?_eq_some he), by simpa using hf⟩

/-! ### Properties of one window -/

/-- Slot `j` has property `k` of the window with handle `h`. -/
def Holds (s : Table) (j : ℕ) (h : UInt32) (k : Text) : Prop :=
  j < maxProp ∧ (s.prop j).used = true ∧ (s.prop j).hwnd = h ∧ (s.prop j).key = k

/-- The window in slot `i` has each property in one slot. -/
def OneEach (s : Table) (i : ℕ) : Prop :=
  ∀ a b k, s.Holds a (handle i) k → s.Holds b (handle i) k → a = b

theorem propFind_some (he : s.propFind h k = some j) : s.Holds j h k := by
  have hf := List.find?_some he
  rw [Bool.and_eq_true, Bool.and_eq_true, beq_iff_eq, beq_iff_eq] at hf
  exact ⟨List.mem_range.mp (List.mem_of_find?_eq_some he), hf.1.1, hf.1.2, hf.2⟩

theorem propFind_none (he : s.propFind h k = none) : ¬ s.Holds j h k := by
  rintro ⟨hj, hu, hh, hk⟩
  have hf := List.find?_eq_none.mp he j (List.mem_range.mpr hj)
  rw [hu, hh, hk] at hf
  simp at hf

theorem freeProp_some (he : s.freeProp = some j) : j < maxProp ∧ (s.prop j).used = false := by
  have hf := List.find?_some he
  exact ⟨List.mem_range.mp (List.mem_of_find?_eq_some he), by simpa using hf⟩

theorem prop_of_holds (ho : s.OneEach i) (hj : s.Holds j (handle i) k) :
    (s.view i).prop k = some (s.prop j).val := by
  show (s.propFind (handle i) k).map _ = _
  cases hf : s.propFind (handle i) k with
  | none => exact absurd hj (propFind_none hf)
  | some a =>
    obtain rfl := ho a j k (propFind_some hf) hj
    rfl

theorem prop_of_not (hn : ∀ j, ¬ s.Holds j (handle i) k) : (s.view i).prop k = none := by
  show (s.propFind (handle i) k).map _ = _
  cases hf : s.propFind (handle i) k with
  | none => rfl
  | some a => exact absurd (propFind_some hf) (hn a)

def setSlot (s : Table) (j : ℕ) (p : PropSlot) : Table :=
  { s with prop := Function.update s.prop j p }

theorem setSlot_prop {a : ℕ} {p : PropSlot} (ha : a ≠ j) : (s.setSlot j p).prop a = s.prop a :=
  Function.update_of_ne ha ..

theorem setSlot_prop_self {p : PropSlot} : (s.setSlot j p).prop j = p :=
  Function.update_self ..

theorem holds_setSlot {a : ℕ} {p : PropSlot} (ha : a ≠ j) :
    (s.setSlot j p).Holds a h k ↔ s.Holds a h k := by
  unfold Holds
  rw [setSlot_prop ha]

theorem holds_setSlot_self {p : PropSlot} :
    (s.setSlot j p).Holds j h k ↔ j < maxProp ∧ p.used = true ∧ p.hwnd = h ∧ p.key = k := by
  unfold Holds
  rw [setSlot_prop_self]

theorem prop_congr (ho : s.OneEach i) (ho' : t.OneEach i) (k : Text)
    (hiff : ∀ v, (∃ a, s.Holds a (handle i) k ∧ (s.prop a).val = v) ↔
      ∃ a, t.Holds a (handle i) k ∧ (t.prop a).val = v) :
    (t.view i).prop k = (s.view i).prop k := by
  by_cases hs : ∃ a, s.Holds a (handle i) k
  · obtain ⟨a, ha⟩ := hs
    obtain ⟨b, hb, hv⟩ := (hiff _).mp ⟨a, ha, rfl⟩
    rw [prop_of_holds ho ha, prop_of_holds ho' hb, hv]
  · have ht : ∀ b, ¬ t.Holds b (handle i) k := by
      intro b hb
      obtain ⟨a, ha, _⟩ := (hiff _).mpr ⟨b, hb, rfl⟩
      exact hs ⟨a, ha⟩
    rw [prop_of_not fun a ha => hs ⟨a, ha⟩, prop_of_not ht]

theorem setSlot_other {p : PropSlot} (ho : s.OneEach i) (hn : ∀ k, ¬ s.Holds j (handle i) k)
    (hp : p.used = true → p.hwnd ≠ handle i) :
    (s.setSlot j p).OneEach i ∧ ((s.setSlot j p).view i).prop = (s.view i).prop := by
  have hiff : ∀ a k, (s.setSlot j p).Holds a (handle i) k ↔ s.Holds a (handle i) k := by
    intro a k
    by_cases ha : a = j
    · subst ha
      rw [holds_setSlot_self]
      exact ⟨fun hh => absurd hh.2.2.1 (hp hh.2.1), fun hh => absurd hh (hn k)⟩
    · exact holds_setSlot ha
  have ho' : (s.setSlot j p).OneEach i := by
    intro a b k ha hb
    exact ho a b k ((hiff a k).mp ha) ((hiff b k).mp hb)
  refine ⟨ho', funext fun k => prop_congr ho ho' k fun v => ?_⟩
  have hval : ∀ a, s.Holds a (handle i) k → ((s.setSlot j p).prop a).val = (s.prop a).val := by
    intro a ha
    have hne : a ≠ j := fun he => hn k (he ▸ ha)
    rw [setSlot_prop hne]
  constructor
  · rintro ⟨a, ha, hv⟩
    exact ⟨a, (hiff a k).mpr ha, (hval a ha).trans hv⟩
  · rintro ⟨a, ha, hv⟩
    have ha' := (hiff a k).mp ha
    exact ⟨a, ha', (hval a ha').symm.trans hv⟩

theorem setSlot_own {v : UInt32} (ho : s.OneEach i) (hj : j < maxProp)
    (hfree : s.Holds j (handle i) k ∨ (s.prop j).used = false ∧ ∀ a, ¬ s.Holds a (handle i) k) :
    (s.setSlot j ⟨handle i, k, v, true⟩).OneEach i ∧
      ((s.setSlot j ⟨handle i, k, v, true⟩).view i).prop =
        Function.update (s.view i).prop k (some v) := by
  set t := s.setSlot j ⟨handle i, k, v, true⟩ with ht
  have hself : ∀ k', t.Holds j (handle i) k' ↔ k' = k := by
    intro k'
    rw [ht, holds_setSlot_self]
    exact ⟨fun hh => hh.2.2.2.symm, fun hh => ⟨hj, rfl, rfl, hh.symm⟩⟩
  -- No other slot has the property, before or after.
  have hother : ∀ a, a ≠ j → ¬ s.Holds a (handle i) k := by
    intro a ha hh
    rcases hfree with hold | ⟨_, hnone⟩
    · exact ha (ho a j k hh hold)
    · exact hnone a hh
  have hrest : ∀ a k', a ≠ j → (t.Holds a (handle i) k' ↔ s.Holds a (handle i) k') :=
    fun a k' ha => holds_setSlot ha
  have hjk : ∀ k', k' ≠ k → ¬ s.Holds j (handle i) k' := by
    intro k' hk hh
    rcases hfree with hold | ⟨hu, _⟩
    · exact hk (hh.2.2.2.symm.trans hold.2.2.2)
    · exact nomatch hu.symm.trans hh.2.1
  have ho' : t.OneEach i := by
    intro a b k' ha hb
    by_cases hk : k' = k
    · subst hk
      have haj : a = j := by
        by_contra hne
        exact hother a hne ((hrest a k' hne).mp ha)
      have hbj : b = j := by
        by_contra hne
        exact hother b hne ((hrest b k' hne).mp hb)
      rw [haj, hbj]
    · have haj : a ≠ j := fun he => hk ((hself k').mp (he ▸ ha))
      have hbj : b ≠ j := fun he => hk ((hself k').mp (he ▸ hb))
      exact ho a b k' ((hrest a k' haj).mp ha) ((hrest b k' hbj).mp hb)
  refine ⟨ho', funext fun k' => ?_⟩
  by_cases hk : k' = k
  · subst hk
    rw [Function.update_self, prop_of_holds ho' ((hself k').mpr rfl)]
    rw [ht, setSlot_prop_self]
  · rw [Function.update_of_ne hk]
    apply prop_congr ho ho'
    intro v'
    have hval : ∀ a, a ≠ j → (t.prop a).val = (s.prop a).val := by
      intro a ha
      rw [ht, setSlot_prop ha]
    constructor
    · rintro ⟨a, ha, hv⟩
      have haj : a ≠ j := fun he => hjk k' hk (he ▸ ha)
      exact ⟨a, (hrest a k' haj).mpr ha, (hval a haj).trans hv⟩
    · rintro ⟨a, ha, hv⟩
      have haj : a ≠ j := fun he => hk ((hself k').mp (he ▸ ha))
      exact ⟨a, (hrest a k' haj).mp ha, (hval a haj).symm.trans hv⟩

theorem setSlot_free {p : PropSlot} (ho : s.OneEach i) (hj : s.Holds j (handle i) k)
    (hp : p.used = false) :
    (s.setSlot j p).OneEach i ∧
      ((s.setSlot j p).view i).prop = Function.update (s.view i).prop k none := by
  set t := s.setSlot j p with ht
  have hself : ∀ k', ¬ t.Holds j (handle i) k' := by
    intro k' hh
    rw [ht, holds_setSlot_self] at hh
    exact nomatch hp.symm.trans hh.2.1
  have hne : ∀ a k', t.Holds a (handle i) k' → a ≠ j := fun a k' hh he => hself k' (he ▸ hh)
  have hrest : ∀ a k', a ≠ j → (t.Holds a (handle i) k' ↔ s.Holds a (handle i) k') :=
    fun a k' ha => holds_setSlot ha
  have ho' : t.OneEach i := by
    intro a b k' ha hb
    exact ho a b k' ((hrest a k' (hne a k' ha)).mp ha) ((hrest b k' (hne b k' hb)).mp hb)
  refine ⟨ho', funext fun k' => ?_⟩
  by_cases hk : k' = k
  · subst hk
    rw [Function.update_self]
    refine prop_of_not fun a ha => hne a k' ha ?_
    exact ho a j k' ((hrest a k' (hne a k' ha)).mp ha) hj
  · rw [Function.update_of_ne hk]
    apply prop_congr ho ho'
    intro v
    have hval : ∀ a, a ≠ j → (t.prop a).val = (s.prop a).val := by
      intro a ha
      rw [ht, setSlot_prop ha]
    constructor
    · rintro ⟨a, ha, hv⟩
      have haj : a ≠ j := fun he => hk ((he ▸ ha).2.2.2.symm.trans hj.2.2.2)
      exact ⟨a, (hrest a k' haj).mpr ha, (hval a haj).trans hv⟩
    · rintro ⟨a, ha, hv⟩
      have haj := hne a k' ha
      exact ⟨a, (hrest a k' haj).mp ha, (hval a haj).symm.trans hv⟩

/-! ### One call -/

/-- The call with this outcome is for the window in slot `i` what `e` says. -/
def Acts (s : Table) (i : ℕ) (e : Option Eff) (r : Ans × Table) : Prop :=
  r.2.OneEach i ∧
    match e with
    | none => r.2.view i = s.view i
    | some e => (r.1, r.2.view i) = (s.view i).act e

theorem view_eq {w : Win} {m sm : UInt32} {p : Text → Option UInt32} (hw : t.win i = w)
    (hp : (t.view i).prop = p) (hm : t.wmenu i = m) (hs : t.wsysmenu i = sm) :
    t.view i = ⟨w, p, m, sm⟩ := by
  subst hw hp hm hs
  rfl

theorem propFind_congr (hp : t.prop = s.prop) : t.propFind h k = s.propFind h k := by
  unfold propFind
  rw [hp]

theorem view_prop_congr (hp : t.prop = s.prop) : (t.view i).prop = (s.view i).prop := by
  funext k
  show (t.propFind (handle i) k).map _ = (s.propFind (handle i) k).map _
  rw [propFind_congr hp, hp]

theorem oneEach_congr (ho : s.OneEach i) (hp : t.prop = s.prop) : t.OneEach i := by
  intro a b k ha hb
  unfold Holds at ha hb
  rw [hp] at ha hb
  exact ho a b k ha hb

theorem Acts.same {a : Ans} (ho : s.OneEach i) (hw : t.win i = s.win i) (hp : t.prop = s.prop)
    (hm : t.wmenu i = s.wmenu i) (hs : t.wsysmenu i = s.wsysmenu i) : Acts s i none (a, t) :=
  ⟨oneEach_congr ho hp, view_eq hw (view_prop_congr hp) hm hs⟩

theorem setWin_self {w : Win} : (s.setWin i w).win i = w := Function.update_self ..

theorem setWin_ne {w : Win} (hij : i ≠ j) : (s.setWin j w).win i = s.win i :=
  Function.update_of_ne hij ..

theorem Acts.setWin_ne {a : Ans} {w : Win} (ho : s.OneEach i) (hij : i ≠ j) :
    Acts s i none (a, s.setWin j w) :=
  .same ho (Table.setWin_ne hij) rfl rfl rfl

theorem Acts.ask (ho : s.OneEach i) (q : Ask) :
    Acts s i (if some j = some i then some (.ask q) else none)
      (((s.win j).ask q).1, s.setWin j ((s.win j).ask q).2) := by
  by_cases hij : j = i
  · subst hij
    rw [if_pos rfl]
    refine ⟨oneEach_congr ho rfl, Prod.ext rfl ?_⟩
    exact view_eq setWin_self (view_prop_congr rfl) rfl rfl
  · rw [if_neg fun he => hij (Option.some.inj he)]
    exact .setWin_ne ho (Ne.symm hij)

theorem acts_ask (ho : s.OneEach i) (h : UInt32) (q : Ask) :
    Acts s i (s.eff i (.ask h q)) (s.ask h q) := by
  unfold eff Table.ask
  dsimp only
  cases s.winIdx h with
  | none =>
    rw [if_neg nofun]
    exact .same ho rfl rfl rfl rfl
  | some j => exact .ask ho q

theorem acts_askCtrl (ho : s.OneEach i) (h id : UInt32) (q : Ask) :
    Acts s i (if s.dlgCtrl h id = some i then some (.ask q) else none) (s.askCtrl h id q) := by
  unfold askCtrl
  cases s.dlgCtrl h id with
  | none =>
    rw [if_neg nofun]
    exact .same ho rfl rfl rfl rfl
  | some j => exact .ask ho q

theorem acts_click (ho : s.OneEach i) (h : UInt32) :
    Acts s i (s.eff i (.click h)) (.value 0, s.click h) := by
  unfold eff Table.click
  dsimp only
  cases s.winIdx h with
  | none => exact .same ho rfl rfl rfl rfl
  | some j =>
    dsimp only
    by_cases hb : (s.win j).isClass "button" = true
    · rw [if_pos hb, if_pos hb]
      by_cases hij : i = j
      · subst hij
        rw [if_pos rfl]
        refine ⟨oneEach_congr ho rfl, Prod.ext rfl ?_⟩
        exact view_eq (if_pos rfl) (view_prop_congr rfl) rfl rfl
      · rw [if_neg hij]
        by_cases hg : i < maxWin ∧ s.sameGroup j i = true
        · rw [if_pos hg]
          refine ⟨oneEach_congr ho rfl, Prod.ext rfl ?_⟩
          exact view_eq ((if_neg hij).trans (if_pos hg)) (view_prop_congr rfl) rfl rfl
        · rw [if_neg hg]
          exact .same ho ((if_neg hij).trans (if_neg hg)) rfl rfl rfl
    · rw [if_neg hb, if_neg hb]
      exact .same ho rfl rfl rfl rfl

/-! ### Properties -/

theorem getProp_view : s.getProp (handle i) k = ((s.view i).prop k).getD 0 := by
  show _ = ((s.propFind (handle i) k).map _).getD 0
  unfold getProp
  cases s.propFind (handle i) k with
  | none => rfl
  | some j => rfl

def Fits (i : ℕ) : Call → Prop
  | .setProp h k _ => h = handle i → k.length ≤ 63
  | _ => True

theorem acts_setProp (ho : s.OneEach i) (h : UInt32) (k : Text) (v : UInt32)
    (hk : h = handle i → k.length ≤ 63) :
    Acts s i (s.eff i (.setProp h k v)) (s.setProp h k v) := by
  unfold eff Table.setProp
  dsimp only
  by_cases hh : h = handle i
  · subst hh
    rw [if_pos rfl, List.take_of_length_le (hk rfl)]
    have hwin : ∀ j p, ((s.setSlot j p).view i).prop = Function.update (s.view i).prop k (some v) →
        (s.setSlot j p).view i = (s.view i).setProp k v :=
      fun j p hp => view_eq rfl hp rfl rfl
    cases hf : s.propFind (handle i) k with
    | some j =>
      have hj := propFind_some hf
      obtain ⟨hone, hview⟩ := setSlot_own (v := v) ho hj.1 (.inl hj)
      refine ⟨hone, ?_⟩
      show _ = (s.view i).act _
      rw [Own.act, prop_of_holds ho hj]
      exact Prod.ext rfl (hwin _ _ hview)
    | none =>
      have hnone : (s.view i).prop k = none := prop_of_not fun a => propFind_none hf
      cases hfree : s.freeProp with
      | some j =>
        obtain ⟨hj, hu⟩ := freeProp_some hfree
        obtain ⟨hone, hview⟩ := setSlot_own (v := v) ho hj
          (.inr ⟨hu, fun a => propFind_none hf⟩)
        refine ⟨hone, ?_⟩
        show _ = (s.view i).act _
        rw [Own.act, hnone]
        exact Prod.ext rfl (hwin _ _ hview)
      | none =>
        refine ⟨ho, ?_⟩
        show _ = (s.view i).act _
        rw [Own.act, hnone]
        rfl
  · rw [if_neg hh]
    have hother : ∀ j, (∀ k', ¬ s.Holds j (handle i) k') →
        Acts s i none (.value 1, s.setSlot j ⟨h, k.take 63, v, true⟩) := by
      intro j hn
      obtain ⟨hone, hview⟩ := setSlot_other (p := ⟨h, k.take 63, v, true⟩) ho hn fun _ => hh
      exact ⟨hone, view_eq rfl hview rfl rfl⟩
    cases hf : s.propFind h k with
    | some j =>
      apply hother j
      intro k' hk'
      exact hh ((propFind_some hf).2.2.1.symm.trans hk'.2.2.1)
    | none =>
      cases hfree : s.freeProp with
      | some j =>
        apply hother j
        intro k' hk'
        exact nomatch (freeProp_some hfree).2.symm.trans hk'.2.1
      | none => exact .same ho rfl rfl rfl rfl

theorem acts_removeProp (ho : s.OneEach i) (h : UInt32) (k : Text) :
    Acts s i (s.eff i (.removeProp h k)) (s.removeProp h k) := by
  unfold eff Table.removeProp
  dsimp only
  by_cases hh : h = handle i
  · subst hh
    rw [if_pos rfl]
    cases hf : s.propFind (handle i) k with
    | some j =>
      have hj := propFind_some hf
      obtain ⟨hone, hview⟩ := setSlot_free (p := { s.prop j with used := false }) ho hj rfl
      refine ⟨hone, ?_⟩
      show _ = (s.view i).act _
      rw [Own.act, prop_of_holds ho hj]
      exact Prod.ext rfl (view_eq rfl hview rfl rfl)
    | none =>
      have hnone : (s.view i).prop k = none := prop_of_not fun a => propFind_none hf
      refine ⟨ho, ?_⟩
      show _ = (s.view i).act _
      rw [Own.act, hnone]
      refine Prod.ext rfl (view_eq rfl ?_ rfl rfl)
      rw [← hnone, Function.update_eq_self]
  · rw [if_neg hh]
    cases hf : s.propFind h k with
    | some j =>
      obtain ⟨hone, hview⟩ := setSlot_other (j := j) (p := { s.prop j with used := false }) ho
        (fun k' hk' => hh ((propFind_some hf).2.2.1.symm.trans hk'.2.2.1)) nofun
      exact ⟨hone, view_eq rfl hview rfl rfl⟩
    | none => exact .same ho rfl rfl rfl rfl

/-! ### Menus -/

theorem menuNew_frame : s.menuNew.2.win = s.win ∧ s.menuNew.2.prop = s.prop ∧
    s.menuNew.2.wmenu = s.wmenu ∧ s.menuNew.2.wsysmenu = s.wsysmenu := by
  unfold menuNew
  split <;> exact ⟨rfl, rfl, rfl, rfl⟩

theorem destroyMenu_frame (m : UInt32) : (s.destroyMenu m).2.win = s.win ∧
    (s.destroyMenu m).2.prop = s.prop ∧ (s.destroyMenu m).2.wmenu = s.wmenu ∧
    (s.destroyMenu m).2.wsysmenu = s.wsysmenu := by
  unfold destroyMenu
  split <;> exact ⟨rfl, rfl, rfl, rfl⟩

theorem acts_setMenu (ho : s.OneEach i) (h m : UInt32) :
    Acts s i (s.eff i (.setMenu h m)) (s.setMenu h m) := by
  unfold eff Table.setMenu
  dsimp only
  cases s.winIdx h with
  | none =>
    rw [if_neg nofun]
    exact .same ho rfl rfl rfl rfl
  | some j =>
    by_cases hij : j = i
    · subst hij
      rw [if_pos rfl]
      refine ⟨oneEach_congr ho rfl, Prod.ext rfl ?_⟩
      exact view_eq rfl (view_prop_congr rfl) (Function.update_self ..) rfl
    · rw [if_neg fun he => hij (Option.some.inj he)]
      exact .same ho rfl rfl (Function.update_of_ne (Ne.symm hij) ..) rfl

theorem acts_getMenu (ho : s.OneEach i) (h : UInt32) :
    Acts s i (s.eff i (.getMenu h)) (.value (s.getMenu h), s) := by
  unfold eff Table.getMenu
  dsimp only
  cases s.winIdx h with
  | none =>
    rw [if_neg nofun]
    exact .same ho rfl rfl rfl rfl
  | some j =>
    by_cases hij : j = i
    · subst hij
      rw [if_pos rfl]
      exact ⟨ho, rfl⟩
    · rw [if_neg fun he => hij (Option.some.inj he)]
      exact .same ho rfl rfl rfl rfl

theorem acts_sysmenu {a : Ans} {v : UInt32} (ho : s.OneEach i) (hw : t.win = s.win)
    (hp : t.prop = s.prop) (hm : t.wmenu = s.wmenu)
    (hs : t.wsysmenu = Function.update s.wsysmenu i v) :
    t.OneEach i ∧ (a, t.view i) = (a, { s.view i with sysmenu := v }) := by
  refine ⟨oneEach_congr ho hp, Prod.ext rfl ?_⟩
  refine view_eq (congrFun hw i) (view_prop_congr hp) (congrFun hm i) ?_
  rw [hs, Function.update_self]

theorem acts_getSystemMenu (ho : s.OneEach i) (h : UInt32) (revert : Bool) :
    Acts s i (s.eff i (.getSystemMenu h revert)) (s.getSystemMenu h revert) := by
  unfold eff Table.getSystemMenu
  dsimp only
  cases s.winIdx h with
  | none =>
    rw [if_neg nofun]
    exact .same ho rfl rfl rfl rfl
  | some j =>
    obtain ⟨hnw, hnp, hnm, hns⟩ := menuNew_frame (s := s)
    obtain ⟨hdw, hdp, hdm, hds⟩ := destroyMenu_frame (s := s) (s.wsysmenu j)
    by_cases hij : j = i
    · subst hij
      rw [if_pos rfl]
      cases revert with
      | true =>
        dsimp only
        rw [if_pos rfl]
        exact acts_sysmenu ho hdw hdp hdm (congrArg (Function.update · j 0) hds)
      | false =>
        dsimp only
        rw [if_neg Bool.false_ne_true]
        show Acts s j (some (.getSystemMenu false s.menuNew.1)) _
        by_cases h0 : s.wsysmenu j = 0
        · rw [if_pos h0]
          have hsys := acts_sysmenu (a := .value s.menuNew.1) (v := s.menuNew.1)
            (t := { s.menuNew.2 with wsysmenu := Function.update s.menuNew.2.wsysmenu j s.menuNew.1 })
            ho hnw hnp hnm (congrArg (Function.update · j s.menuNew.1) hns)
          refine hsys.imp_right fun he => ?_
          show _ = if (s.view j).sysmenu = 0 then _ else _
          rw [if_pos (show (s.view j).sysmenu = 0 from h0)]
          exact he
        · rw [if_neg h0]
          refine ⟨ho, ?_⟩
          show _ = if (s.view j).sysmenu = 0 then _ else _
          rw [if_neg (show (s.view j).sysmenu ≠ 0 from h0)]
          rfl
    · rw [if_neg fun he => hij (Option.some.inj he)]
      have hne : i ≠ j := Ne.symm hij
      cases revert with
      | true =>
        dsimp only
        rw [if_pos rfl]
        refine .same ho (congrFun hdw i) hdp (congrFun hdm i) ?_
        exact (Function.update_of_ne hne ..).trans (congrFun hds i)
      | false =>
        dsimp only
        rw [if_neg Bool.false_ne_true]
        split
        · refine .same ho (congrFun hnw i) hnp (congrFun hnm i) ?_
          exact (Function.update_of_ne hne ..).trans (congrFun hns i)
        · exact .same ho rfl rfl rfl rfl

/-! ### Creation and destruction of other windows -/

theorem windowCreate_some {wp ex st pa : UInt32} {ti : Text} {ct : Bool}
    (he : s.windowCreate wp ex st pa ti ct = some (j, t)) :
    s.freeWin = some j ∧ t = s.setWin j (fill (s.win j) wp ex st pa ti) := by
  unfold windowCreate at he
  split at he
  · exact nomatch he
  · split at he
    · exact nomatch he
    · rename_i i hi
      obtain ⟨rfl, rfl⟩ := Prod.mk.inj (Option.some.inj he)
      exact ⟨hi, rfl⟩

theorem ne_of_free (hu : (s.win i).used = true) (hf : s.freeWin = some j) : i ≠ j := by
  rintro rfl
  exact nomatch (freeWin_some hf).2.symm.trans hu

theorem acts_window (ho : s.OneEach i) (hu : (s.win i).used = true) (wide : Bool) (a : Args) :
    Acts s i none (s.window wide a) := by
  unfold Table.window
  split
  · exact .same ho rfl rfl rfl rfl
  · rename_i j t he
    obtain ⟨hf, rfl⟩ := windowCreate_some he
    have hij := ne_of_free hu hf
    exact .same ho ((setWin_ne hij).trans (setWin_ne hij)) rfl rfl rfl

theorem acts_dialog (ho : s.OneEach i) (hu : (s.win i).used = true) (a : DialogArgs) :
    Acts s i none (s.dialog a) := by
  unfold Table.dialog
  split
  · exact .same ho rfl rfl rfl rfl
  · rename_i j t he
    obtain ⟨hf, rfl⟩ := windowCreate_some he
    exact .setWin_ne ho (ne_of_free hu hf)

theorem acts_control (ho : s.OneEach i) (hu : (s.win i).used = true) (a : ControlArgs) :
    Acts s i none (s.control a) := by
  unfold Table.control
  split
  · exact .same ho rfl rfl rfl rfl
  · rename_i j hf
    exact .setWin_ne ho (ne_of_free hu hf)

theorem acts_destroyWindow (ho : s.OneEach i) (h : UInt32) (a : Ans)
    (hu : ((s.destroyWindow h).win i).used = true) : Acts s i none (a, s.destroyWindow h) := by
  unfold Table.destroyWindow at hu ⊢
  cases hx : s.winIdx h with
  | none => exact .same ho rfl rfl rfl rfl
  | some j =>
    rw [hx] at hu
    have hij : i ≠ j := by
      rintro rfl
      have hself : ((s.setWin i { s.win i with used := false }).win i).used = false := by
        rw [setWin_self]
      exact nomatch hself.symm.trans hu
    exact .setWin_ne ho hij

theorem acts_destroyDialog (ho : s.OneEach i) (h : UInt32) (a : Ans)
    (hu : ((s.destroyDialog h).win i).used = true) : Acts s i none (a, s.destroyDialog h) := by
  refine .same ho ?_ rfl rfl rfl
  show (if _ then { s.win i with used := false } else s.win i) = s.win i
  replace hu : (if _ then { s.win i with used := false } else s.win i).used = true := hu
  split at hu
  · exact nomatch hu
  · rename_i hn
    exact if_neg hn

variable (clock) in
theorem acts_step (ho : s.OneEach i) (hu : (s.win i).used = true) (hc : Fits i c)
    (hu' : ((s.step clock c).2.win i).used = true) :
    Acts s i (s.eff i c) (s.step clock c) := by
  cases c with
  | window wide a => exact acts_window ho hu wide a
  | dialog a => exact acts_dialog ho hu a
  | control a => exact acts_control ho hu a
  | destroyWindow h => exact acts_destroyWindow ho h _ hu'
  | destroyDialog h => exact acts_destroyDialog ho h _ hu'
  | ask h q => exact acts_ask ho h q
  | checkDlgButton h id v => exact acts_askCtrl ho h id _
  | isDlgButtonChecked h id => exact acts_askCtrl ho h id _
  | click h => exact acts_click ho h
  | setProp h k v => exact acts_setProp ho h k v hc
  | getProp h k =>
    unfold eff
    dsimp only
    by_cases hh : h = handle i
    · subst hh
      rw [if_pos rfl]
      refine ⟨ho, ?_⟩
      show (Ans.value (s.getProp (handle i) k), s.view i) = _
      rw [getProp_view]
      rfl
    · rw [if_neg hh]
      exact .same ho rfl rfl rfl rfl
  | removeProp h k => exact acts_removeProp ho h k
  | createMenu =>
    obtain ⟨hw, hp, hm, hs⟩ := menuNew_frame (s := s)
    exact .same ho (congrFun hw i) hp (congrFun hm i) (congrFun hs i)
  | destroyMenu m =>
    obtain ⟨hw, hp, hm, hs⟩ := destroyMenu_frame (s := s) m
    exact .same ho (congrFun hw i) hp (congrFun hm i) (congrFun hs i)
  | setMenu h m => exact acts_setMenu ho h m
  | getMenu h => exact acts_getMenu ho h
  | getSystemMenu h revert => exact acts_getSystemMenu ho h revert
  | queue c => exact .same ho rfl rfl rfl rfl
  | setFocus h =>
    show Acts s i none (s.setFocus h)
    unfold Table.setFocus
    split <;> exact .same ho rfl rfl rfl rfl

end Table

end Aret.Wnd
