/-
Which types a catch takes.

A catch takes the type that it names, and a class that has it as a public base once.
The test of the runtime stops at the first copy of the class that it finds.

* `matchType_of_rule` — its answer is the rule of C++ for types on which it is decided.
-/
import Aret.GnuEh
import Mathlib.Tactic.Common

namespace Aret.Eh

/-! ### The bases of a class -/

def Bases.toList : Bases → List (TypeInfo × ℤ)
  | .nil => []
  | .cons base offflags rest => (base, offflags) :: rest.toList

namespace TypeInfo

/-- The bases of a type, with their `offset_flags`; a single base is public and at the start. -/
def bases : TypeInfo → List (TypeInfo × ℤ)
  | .si _ _ base => [(base, 2)]
  | .vmi _ _ bases => bases.toList
  | _ => []

/-- A chain of bases, with the sum of their offsets; `use` admits a base by its place and flags. -/
inductive Path (use : ℕ → ℤ → Prop) : TypeInfo → ℤ → TypeInfo → Prop
  | refl (t : TypeInfo) : Path use t 0 t
  | step {t u v : TypeInfo} {i : ℕ} {flags off : ℤ} (hb : t.bases[i]? = some (u, flags))
      (hu : use i flags) (h : Path use u off v) : Path use t (flags / 2 ^ 8 + off) v

/-- An object of type `t` has a copy of the class `c` at an offset. -/
def Copy (use : ℕ → ℤ → Prop) (t c : TypeInfo) (off : ℤ) : Prop :=
  ∃ u, Path use t off u ∧ u.equal c = true

def Listed (_ : ℕ) (_ : ℤ) : Prop := True

def NonVirtual (_ : ℕ) (flags : ℤ) : Prop := flags % 2 = 0

def Public (i : ℕ) (flags : ℤ) : Prop := NonVirtual i flags ∧ flags / 2 % 2 = 1

def Followed (i : ℕ) (flags : ℤ) : Prop := Public i flags ∧ i < 64

/-- Each type that the test comes to is of a kind it knows, or is the class itself. -/
def Known (t c : TypeInfo) : Prop :=
  ∀ off addr name, Path Followed t off (.unknown addr name) →
    (TypeInfo.unknown addr name).equal c = true

/-- The answer of the test is the rule: it knows the types it comes to, and no copy of the class lies
behind a virtual base; a class that is there twice is seen by no public path through the first 64
bases of each class, and one that is there once and public is. -/
structure Decided (t c : TypeInfo) : Prop where
  known : t.Known c
  straight : ∀ off u (i : ℕ) v flags, Path Listed t off u → u.bases[i]? = some (v, flags) →
    flags % 2 = 1 → ∀ off', ¬ Copy Listed v c off'
  twice : ∀ off off', Copy NonVirtual t c off → Copy NonVirtual t c off' → off ≠ off' →
    ∀ off'', ¬ Copy Followed t c off''
  once : ∀ off, Copy Public t c off → (∀ off', Copy NonVirtual t c off' → off' = off) →
    Copy Followed t c off

end TypeInfo

open TypeInfo

/-- What a catch does with a thrown type: a catch-all takes any type, another one the class itself
or a public base that the object has once, at an offset. -/
inductive Rule : Option TypeInfo → Option TypeInfo → Option ℤ → Prop
  | all {t : Option TypeInfo} : Rule t none (some 0)
  | takes {t c : TypeInfo} {off : ℤ} (h : Copy Public t c off)
      (hone : ∀ off', Copy NonVirtual t c off' → off' = off) : Rule (some t) (some c) (some off)
  | refuses {t c : TypeInfo}
      (h : ∀ off, Copy Public t c off → ∃ off', Copy NonVirtual t c off' ∧ off' ≠ off) :
      Rule (some t) (some c) none

namespace TypeInfo

variable {use use' : ℕ → ℤ → Prop} {t u c : TypeInfo} {off : ℤ}

theorem Path.mono (huse : ∀ i f, use i f → use' i f) (h : Path use t off u) :
    Path use' t off u := by
  induction h with
  | refl => exact .refl _
  | step hb hu _ ih => exact .step hb (huse _ _ hu) ih

theorem Copy.mono (huse : ∀ i f, use i f → use' i f) (h : Copy use t c off) :
    Copy use' t c off := by
  obtain ⟨u, hpath, heq⟩ := h
  exact ⟨u, hpath.mono huse, heq⟩

theorem copy_iff : Copy use t c off ↔ (off = 0 ∧ t.equal c = true) ∨
    ∃ i u f rest, t.bases[i]? = some (u, f) ∧ use i f ∧ Copy use u c rest ∧
      off = f / 2 ^ 8 + rest := by
  constructor
  · rintro ⟨u, hpath, heq⟩
    cases hpath with
    | refl => exact .inl ⟨rfl, heq⟩
    | step hb hu h => exact .inr ⟨_, _, _, _, hb, hu, ⟨u, h, heq⟩, rfl⟩
  · rintro (⟨rfl, heq⟩ | ⟨i, v, f, rest, hb, hu, ⟨u, hpath, heq⟩, rfl⟩)
    · exact ⟨t, .refl t, heq⟩
    · exact ⟨u, .step hb hu hpath, heq⟩

end TypeInfo

/-! ### The test -/

/-- What the test says of the copies that it can see. -/
def Answers (c t : TypeInfo) (r : Match) : Prop :=
  (r = .no ∧ ∀ off, ¬ Copy Followed t c off) ∨ ∃ off, r = .yes off ∧ Copy Followed t c off

section
variable {c t : TypeInfo}

theorem TypeInfo.Known.base (h : t.Known c) {i : ℕ} {u : TypeInfo} {f : ℤ}
    (hb : t.bases[i]? = some (u, f)) (hf : Followed i f) : u.Known c :=
  fun _ addr name hpath => h _ addr name (.step hb hf hpath)

/-- A type that is not of the class itself is answered as its bases are. -/
theorem answers_of_bases (hne : ¬ t.equal c = true) {r : Match}
    (h : (r = .no ∧ ∀ i u f, t.bases[i]? = some (u, f) → Followed i f →
        ∀ off, ¬ Copy Followed u c off) ∨
      ∃ i u f off, t.bases[i]? = some (u, f) ∧ Followed i f ∧ r = .yes (f / 2 ^ 8 + off) ∧
        Copy Followed u c off) : Answers c t r := by
  rcases h with ⟨hno, hnone⟩ | ⟨i, u, f, off, hb, hf, hyes, hcopy⟩
  · refine .inl ⟨hno, fun off hcopy => ?_⟩
    rcases copy_iff.mp hcopy with ⟨-, heq⟩ | ⟨i, u, f, rest, hb, hf, hrest, -⟩
    · exact hne heq
    · exact hnone i u f hb hf rest hrest
  · exact .inr ⟨_, hyes, copy_iff.mpr (.inr ⟨i, u, f, off, hb, hf, hcopy, rfl⟩)⟩

end

mutual

theorem matchType_answers (c : TypeInfo) : ∀ t, t.Known c → Answers c t (matchType c t)
  | .cls a n, _ => by
    rw [matchType]
    split_ifs with heq
    · exact .inr ⟨0, rfl, copy_iff.mpr (.inl ⟨rfl, heq⟩)⟩
    · exact answers_of_bases heq (.inl ⟨rfl, by simp [bases]⟩)
  | .si a n base, h => by
    rw [matchType]
    split_ifs with heq
    · exact .inr ⟨0, rfl, copy_iff.mpr (.inl ⟨rfl, heq⟩)⟩
    · have hb : (TypeInfo.si a n base).bases[0]? = some (base, 2) := rfl
      have hf : Followed 0 2 := by simp [Followed, Public, NonVirtual]
      refine answers_of_bases heq ?_
      rcases matchType_answers c base (h.base hb hf) with ⟨hno, hnone⟩ | ⟨off, hyes, hcopy⟩
      · refine .inl ⟨hno, fun i u f hi _ => ?_⟩
        obtain ⟨rfl, rfl⟩ : base = u ∧ (2 : ℤ) = f := by
          cases i <;> simp [bases] at hi
          exact hi
        exact hnone
      · refine .inr ⟨0, base, 2, off, hb, hf, ?_, hcopy⟩
        rw [hyes]
        norm_num
  | .vmi a n bs, h => by
    rw [matchType]
    split_ifs with heq
    · exact .inr ⟨0, rfl, copy_iff.mpr (.inl ⟨rfl, heq⟩)⟩
    · refine answers_of_bases heq ?_
      have hall := matchBases_answers c bs 64 0 rfl fun i u f hi hf => by
        rw [Nat.zero_add] at hf
        exact h.base hi hf
      simp only [Nat.zero_add] at hall
      exact hall
  | .unknown a n, h => by
    rw [matchType, if_pos (h 0 a n (.refl _))]
    exact .inr ⟨0, rfl, copy_iff.mpr (.inl ⟨rfl, h 0 a n (.refl _)⟩)⟩

theorem matchBases_answers (c : TypeInfo) : ∀ (bs : Bases) (k lo : ℕ), lo + k = 64 →
    (∀ i u f, bs.toList[i]? = some (u, f) → Followed (lo + i) f → u.Known c) →
    (matchBases c k bs = .no ∧ ∀ i u f, bs.toList[i]? = some (u, f) → Followed (lo + i) f →
        ∀ off, ¬ Copy Followed u c off) ∨
      ∃ i u f off, bs.toList[i]? = some (u, f) ∧ Followed (lo + i) f ∧
        matchBases c k bs = .yes (f / 2 ^ 8 + off) ∧ Copy Followed u c off
  | _, 0, lo, hk, _ => by
    rw [matchBases]
    refine .inl ⟨rfl, fun i u f _ hf => ?_⟩
    have := hf.2
    omega
  | .nil, k + 1, _, _, _ => by
    rw [matchBases]
    exact .inl ⟨rfl, fun i u f hi => by simp [Bases.toList] at hi⟩
  | .cons base flags rest, k + 1, lo, hk, hknown => by
    have hrest := matchBases_answers c rest k (lo + 1) (by omega) fun i u f hi hf =>
      hknown (i + 1) u f hi (by rwa [show lo + (i + 1) = lo + 1 + i by omega])
    -- A base that is passed over, or has no copy, leaves the answer to those behind it.
    have hskip : (Followed lo flags → ∀ off, ¬ Copy Followed base c off) →
        (matchBases c k rest = .no ∧ ∀ i u f, (Bases.cons base flags rest).toList[i]? = some (u, f) →
            Followed (lo + i) f → ∀ off, ¬ Copy Followed u c off) ∨
          ∃ i u f off, (Bases.cons base flags rest).toList[i]? = some (u, f) ∧ Followed (lo + i) f ∧
            matchBases c k rest = .yes (f / 2 ^ 8 + off) ∧ Copy Followed u c off := by
      intro hfirst
      rcases hrest with ⟨hno, hnone⟩ | ⟨i, u, f, off, hi, hf, hyes, hcopy⟩
      · refine .inl ⟨hno, fun i u f hi hf => ?_⟩
        cases i with
        | zero =>
          obtain ⟨rfl, rfl⟩ : base = u ∧ flags = f := by simpa [Bases.toList] using hi
          exact hfirst hf
        | succ i => exact hnone i u f hi (by rwa [show lo + 1 + i = lo + (i + 1) by omega])
      · exact .inr ⟨i + 1, u, f, off, hi, by rwa [show lo + (i + 1) = lo + 1 + i by omega], hyes,
          hcopy⟩
    rw [matchBases]
    split_ifs with hpass
    · refine hskip fun hf => ?_
      have hpub : flags % 2 = 0 ∧ flags / 2 % 2 = 1 := hf.1
      omega
    · have hf : Followed lo flags := by
        have hlt : lo < 64 := by omega
        exact ⟨⟨show flags % 2 = 0 by omega, by omega⟩, hlt⟩
      rcases matchType_answers c base (hknown 0 base flags rfl hf) with
        ⟨hno, hnone⟩ | ⟨off, hyes, hcopy⟩
      · rw [hno]
        exact hskip fun _ => hnone
      · rw [hyes]
        exact .inr ⟨0, base, flags, off, rfl, hf, rfl, hcopy⟩

end

theorem matchType_of_rule {t c : TypeInfo} {r : Option ℤ} (hd : t.Decided c)
    (h : Rule (some t) (some c) r) :
    matchType c t = r.elim .no .yes := by
  have hpub : ∀ {off}, Copy Followed t c off → Copy Public t c off := fun h =>
    h.mono fun _ _ hf => hf.1
  have hnv : ∀ {off}, Copy Public t c off → Copy NonVirtual t c off := fun h =>
    h.mono fun _ _ hf => hf.1
  cases h with
  | takes hcopy hone =>
    rcases matchType_answers c t hd.known with ⟨-, hnone⟩ | ⟨off', hyes, hseen⟩
    · exact absurd (hd.once _ hcopy hone) (hnone _)
    · rw [hyes, hone off' (hnv (hpub hseen))]
      rfl
  | refuses hno =>
    rcases matchType_answers c t hd.known with ⟨hans, -⟩ | ⟨off, -, hseen⟩
    · exact hans
    · obtain ⟨off', hoff', hne⟩ := hno off (hpub hseen)
      exact absurd hseen (hd.twice _ _ hoff' (hnv (hpub hseen)) hne off)

end Aret.Eh
