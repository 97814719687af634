/-
C++ subtype matching on the `type_info` objects in memory.

* `typeMatch_exact_iff` — it is the relation of C++ exactly where the catch type is
  not an ambiguous base, or is no base that the test can see.
-/
import Aret.GnuEh
import Mathlib.Data.Finset.Lattice.Fold
import Mathlib.Tactic

namespace Aret.Eh.Rtti

structure Memory where
  word : ℕ → ℕ
  text : ℕ → String

/-- The vtable addresses that `aret_gnu_eh_abi_vptrs` gives; 0 for one that is not imported. -/
structure Abi where
  cls : ℕ
  si : ℕ
  vmi : ℕ

/-- What the vtable pointer of a `type_info` tells. -/
inductive Kind
  | cls
  | si
  | vmi
  | unrecognised
  deriving DecidableEq

/-- A word as an `int32_t`, and a sum of them. -/
def int32 (v : ℤ) : ℤ := v.bmod (2 ^ 32)

namespace Memory

variable (m : Memory) (abi : Abi)

def rd (a : ℕ) : ℕ := m.word (a % 2 ^ 32)

/-- `aret_gnu_ti_equal`: the same object, or one with the same mangled name. -/
def tiEqual (a b : ℕ) : Bool :=
  if a = b then a ≠ 0
  else if a = 0 ∨ b = 0 then false
  else if m.rd (a + 4) = 0 ∨ m.rd (b + 4) = 0 then false
  else m.text (m.rd (a + 4)) = m.text (m.rd (b + 4))

def kind (t : ℕ) : Kind :=
  if abi.cls ≠ 0 ∧ m.rd t = abi.cls then .cls
  else if abi.si ≠ 0 ∧ m.rd t = abi.si then .si
  else if abi.vmi ≠ 0 ∧ m.rd t = abi.vmi then .vmi
  else .unrecognised

/-- The base of an `__si_class_type_info`. -/
def siBase (t : ℕ) : ℕ := m.rd (t + 8)

/-- The number of bases of a `__vmi_class_type_info`. -/
def baseCount (t : ℕ) : ℕ := m.rd (t + 12)

/-- The type of the `b`-th entry of its `base_info` array. -/
def baseType (t b : ℕ) : ℕ := m.rd (t + 16 + b * 8)

/-- The `offset_flags` of that entry. -/
def offFlags (t b : ℕ) : ℕ := m.rd (t + 16 + b * 8 + 4)

/-- `(int32_t)offflags >> 8`. -/
def baseOffset (t b : ℕ) : ℤ := int32 (m.offFlags t b) / 2 ^ 8

/-- The loop over the `base_info` array, when `k` of its 64 turns are left. -/
def matchBases (rec : ℕ → Option Match) (t : ℕ) : ℕ → Option Match
  | 0 => some .no
  | k + 1 =>
    let b := 63 - k
    if m.baseCount t ≤ b then some .no
    -- a virtual base: its offset lies in the vtable of the object
    else if m.offFlags t b % 2 = 1 then matchBases rec t k
    else if m.offFlags t b / 2 % 2 = 0 then matchBases rec t k
    else
      match rec (m.baseType t b) with
      | some (.yes sub) => some (.yes (int32 (m.baseOffset t b + sub)))
      | some .no => matchBases rec t k
      | r => r

/-- `aret_gnu_type_match_adj`, in so many levels of recursion; `none` when they do not suffice. -/
def matchAt (c : ℕ) : ℕ → ℕ → Option Match
  | 0, _ => none
  | fuel + 1, t =>
    if c = 0 then some (.yes 0)
    else if m.tiEqual t c then some (.yes 0)
    -- a null pointer is dereferenced
    else if t = 0 then some .stop
    else
      match m.kind abi t with
      | .cls => some .no
      | .si => matchAt c fuel (m.siBase t)
      | .vmi => m.matchBases (matchAt c fuel) t 64
      | .unrecognised => some .stop

/-- The test of a thrown type against a catch type returns `r`. -/
def Returns (t c : ℕ) (r : Match) : Prop := ∃ n, ∀ fuel, n ≤ fuel → m.matchAt abi c fuel t = some r

/-! ### The inheritance relation -/

/-- A base of a type at an offset; of a `base_info` array, the entries that `use` admits by their
index and `offset_flags`. -/
inductive Base (use : ℕ → ℕ → Prop) : ℕ → ℤ → ℕ → Prop
  | si {t : ℕ} (h : m.kind abi t = .si) : Base use t 0 (m.siBase t)
  | vmi {t b : ℕ} (h : m.kind abi t = .vmi) (hb : b < m.baseCount t)
      (hu : use b (m.offFlags t b)) : Base use t (m.baseOffset t b) (m.baseType t b)

/-- A chain of bases, with the sum of their offsets. -/
inductive Path (use : ℕ → ℕ → Prop) : ℕ → ℤ → ℕ → Prop
  | refl (t : ℕ) : Path use t 0 t
  | step {t u v : ℕ} {d off : ℤ} (hb : m.Base abi use t d u) (h : Path use u off v) :
      Path use t (d + off) v

/-- A copy of the type `c` is a base of `t`, or `t` itself, at an offset. -/
def Reaches (use : ℕ → ℕ → Prop) (t c : ℕ) (off : ℤ) : Prop :=
  ∃ u, m.Path abi use t off u ∧ m.tiEqual u c = true

def NonVirtual (_ flags : ℕ) : Prop := flags % 2 = 0

def Public (b flags : ℕ) : Prop := NonVirtual b flags ∧ flags / 2 % 2 = 1

def Followed (b flags : ℕ) : Prop := Public b flags ∧ b < 64

/-- The `type_info` objects below an address are of the three kinds, without a cycle. -/
inductive Hierarchy : ℕ → Prop
  | cls {t : ℕ} (h0 : t ≠ 0) (h : m.kind abi t = .cls) : Hierarchy t
  | si {t : ℕ} (h0 : t ≠ 0) (h : m.kind abi t = .si) (hb : Hierarchy (m.siBase t)) : Hierarchy t
  | vmi {t : ℕ} (h0 : t ≠ 0) (h : m.kind abi t = .vmi)
      (hb : ∀ b < m.baseCount t, Hierarchy (m.baseType t b)) : Hierarchy t

def Unambiguous (t c : ℕ) : Prop :=
  ∀ off off', m.Reaches abi NonVirtual t c off → m.Reaches abi NonVirtual t c off' → off = off'

/-- The test of a thrown type against a catch type is the rule of C++. -/
structure Exact (t c : ℕ) : Prop where
  ends : m.Returns abi t c .no ∨ ∃ a, m.Returns abi t c (.yes a)
  sound : ∀ a, m.Returns abi t c (.yes a) → ∃ off, m.Reaches abi Public t c off ∧ a = int32 off
  refused : (∀ off, ¬ m.Reaches abi Public t c off) → m.Returns abi t c .no
  ambiguous : ¬ m.Unambiguous abi t c → m.Returns abi t c .no
  matched : ∀ off, m.Reaches abi Public t c off → m.Unambiguous abi t c →
    m.Returns abi t c (.yes (int32 off))

/-- An ambiguous base has no public path by the first 64 bases of each class, and one that is not
ambiguous has such a path if it has a public one. -/
def Decided (t c : ℕ) : Prop :=
  (¬ m.Unambiguous abi t c → ∀ off, ¬ m.Reaches abi Followed t c off) ∧
    (m.Unambiguous abi t c → ∀ off, m.Reaches abi Public t c off → m.Reaches abi Followed t c off)

variable {m abi}
variable {use use' : ℕ → ℕ → Prop} {t u c : ℕ} {off : ℤ}

theorem Path.mono (huse : ∀ b f, use b f → use' b f) (h : m.Path abi use t off u) :
    m.Path abi use' t off u := by
  induction h with
  | refl => exact .refl _
  | step hb _ ih =>
    cases hb with
    | si h => exact .step (.si h) ih
    | vmi h hb hu => exact .step (.vmi h hb (huse _ _ hu)) ih

theorem Reaches.mono (huse : ∀ b f, use b f → use' b f) (h : m.Reaches abi use t c off) :
    m.Reaches abi use' t c off := by
  obtain ⟨u, hpath, heq⟩ := h
  exact ⟨u, hpath.mono huse, heq⟩

theorem reaches_iff : m.Reaches abi use t c off ↔
    (off = 0 ∧ m.tiEqual t c = true) ∨
      ∃ d u rest, m.Base abi use t d u ∧ m.Reaches abi use u c rest ∧ off = d + rest := by
  constructor
  · rintro ⟨u, hpath, heq⟩
    cases hpath with
    | refl => exact Or.inl ⟨rfl, heq⟩
    | step hb h => exact Or.inr ⟨_, _, _, hb, ⟨u, h, heq⟩, rfl⟩
  · rintro (⟨rfl, heq⟩ | ⟨d, v, rest, hb, ⟨u, hpath, heq⟩, rfl⟩)
    · exact ⟨t, .refl t, heq⟩
    · exact ⟨u, .step hb hpath, heq⟩

theorem Returns.inj {r r' : Match} (h : m.Returns abi t c r) (h' : m.Returns abi t c r') :
    r = r' := by
  obtain ⟨n, hn⟩ := h
  obtain ⟨n', hn'⟩ := h'
  have hr := hn (max n n') (le_max_left _ _)
  rw [hn' (max n n') (le_max_right _ _)] at hr
  exact (Option.some.inj hr).symm

/-! ### The test -/

theorem int32_int32_add (a b : ℤ) : int32 (a + int32 b) = int32 (a + b) := by
  simp only [int32, Int.add_bmod_bmod]

def Answers (m : Memory) (abi : Abi) (t c : ℕ) (r : Match) : Prop :=
  (r = .no ∧ ∀ off, ¬ m.Reaches abi Followed t c off) ∨
    ∃ off, r = .yes (int32 off) ∧ m.Reaches abi Followed t c off

/-- The entries of a `base_info` array that the loop follows, from the `lo`-th one on. -/
def Entry (m : Memory) (t lo b : ℕ) : Prop :=
  lo ≤ b ∧ b < m.baseCount t ∧ Followed b (m.offFlags t b)

theorem matchBases_spec {rec : ℕ → Option Match}
    (hrec : ∀ b < m.baseCount t, ∃ r, rec (m.baseType t b) = some r ∧
      Answers m abi (m.baseType t b) c r) (k : ℕ) (hk : k ≤ 64) :
    ∃ r, m.matchBases rec t k = some r ∧
      ((r = .no ∧ ∀ b, m.Entry t (64 - k) b →
          ∀ off, ¬ m.Reaches abi Followed (m.baseType t b) c off) ∨
        ∃ b off, r = .yes (int32 (m.baseOffset t b + off)) ∧ m.Entry t (64 - k) b ∧
          m.Reaches abi Followed (m.baseType t b) c off) := by
  induction k with
  | zero =>
    refine ⟨.no, rfl, Or.inl ⟨rfl, fun b hb => ?_⟩⟩
    obtain ⟨hlo, _, _, h64⟩ := hb
    omega
  | succ k ih =>
    obtain ⟨r, hr, hspec⟩ := ih (by omega)
    have hlo : 64 - (k + 1) = 63 - k := by omega
    -- An entry that is passed over, or does not match, leaves the answer to those behind it.
    have hskip : (m.Entry t (63 - k) (63 - k) →
          ∀ off, ¬ m.Reaches abi Followed (m.baseType t (63 - k)) c off) →
        (r = .no ∧ ∀ b, m.Entry t (63 - k) b →
            ∀ off, ¬ m.Reaches abi Followed (m.baseType t b) c off) ∨
          ∃ b off, r = .yes (int32 (m.baseOffset t b + off)) ∧ m.Entry t (63 - k) b ∧
            m.Reaches abi Followed (m.baseType t b) c off := by
      intro hfirst
      rcases hspec with ⟨hno, hnone⟩ | ⟨b, off, hyes, ⟨hb, hrest⟩, hreach⟩
      · refine Or.inl ⟨hno, fun b hb => ?_⟩
        by_cases hlast : b = 63 - k
        · subst hlast
          exact hfirst hb
        · exact hnone b ⟨by have := hb.1; omega, hb.2⟩
      · exact Or.inr ⟨b, off, hyes, ⟨by omega, hrest⟩, hreach⟩
    rw [hlo, matchBases]
    by_cases hcount : m.baseCount t ≤ 63 - k
    · refine ⟨.no, if_pos hcount, Or.inl ⟨rfl, fun b hb => ?_⟩⟩
      have := hb.1
      have := hb.2.1
      omega
    · by_cases hvirt : m.offFlags t (63 - k) % 2 = 1
      · refine ⟨r, by rw [if_neg hcount, if_pos hvirt, hr], hskip fun hb => ?_⟩
        have hnv : m.offFlags t (63 - k) % 2 = 0 := hb.2.2.1.1
        omega
      · by_cases hpriv : m.offFlags t (63 - k) / 2 % 2 = 0
        · refine ⟨r, by rw [if_neg hcount, if_neg hvirt, if_pos hpriv, hr], hskip fun hb => ?_⟩
          have hpub : m.offFlags t (63 - k) / 2 % 2 = 1 := hb.2.2.1.2
          omega
        · obtain ⟨r', hr', hans⟩ := hrec (63 - k) (by omega)
          rcases hans with ⟨rfl, hnone⟩ | ⟨off, rfl, hreach⟩
          · refine ⟨r, ?_, hskip fun _ => hnone⟩
            rw [if_neg hcount, if_neg hvirt, if_neg hpriv, hr']
            exact hr
          · refine ⟨.yes (int32 (m.baseOffset t (63 - k) + off)), ?_,
              Or.inr ⟨63 - k, off, rfl, ⟨le_rfl, by omega, ⟨?_, ?_⟩, by omega⟩, hreach⟩⟩
            · rw [if_neg hcount, if_neg hvirt, if_neg hpriv, hr']
              simp only [int32_int32_add]
            · show m.offFlags t (63 - k) % 2 = 0
              omega
            · omega

theorem matchBases_congr {rec rec' : ℕ → Option Match}
    (h : ∀ b < m.baseCount t, rec (m.baseType t b) = rec' (m.baseType t b)) (k : ℕ) :
    m.matchBases rec t k = m.matchBases rec' t k := by
  induction k with
  | zero => rfl
  | succ k ih =>
    rw [matchBases, matchBases, ih]
    by_cases hcount : m.baseCount t ≤ 63 - k
    · rw [if_pos hcount, if_pos hcount]
    · rw [h _ (by omega)]

theorem matchAt_spec (hc : c ≠ 0) (h : m.Hierarchy abi t) :
    ∃ n r, (∀ fuel, n ≤ fuel → m.matchAt abi c fuel t = some r) ∧ Answers m abi t c r := by
  -- The test of an object with the name of the catch type, whatever its kind.
  have hequal : ∀ {t}, m.tiEqual t c = true →
      ∃ n r, (∀ fuel, n ≤ fuel → m.matchAt abi c fuel t = some r) ∧ Answers m abi t c r := by
    intro t heq
    refine ⟨1, .yes 0, fun fuel hf => ?_, Or.inr ⟨0, rfl, reaches_iff.mpr (Or.inl ⟨rfl, heq⟩)⟩⟩
    obtain ⟨fuel, rfl⟩ := Nat.exists_eq_add_of_le' hf
    rw [matchAt, if_neg hc, if_pos heq]
  induction h with
  | @cls t h0 hk =>
    by_cases heq : m.tiEqual t c = true
    · exact hequal heq
    · refine ⟨1, .no, fun fuel hf => ?_, Or.inl ⟨rfl, fun off hreach => ?_⟩⟩
      · obtain ⟨fuel, rfl⟩ := Nat.exists_eq_add_of_le' hf
        rw [matchAt, if_neg hc, if_neg heq, if_neg h0, hk]
      · rcases reaches_iff.mp hreach with ⟨_, he⟩ | ⟨_, _, _, hb, _⟩
        · exact heq he
        · cases hb with
          | si h => simp [hk] at h
          | vmi h => simp [hk] at h
  | @si t h0 hk hb ih =>
    by_cases heq : m.tiEqual t c = true
    · exact hequal heq
    · obtain ⟨n, r, hn, hans⟩ := ih
      refine ⟨n + 1, r, fun fuel hf => ?_, ?_⟩
      · obtain ⟨fuel, rfl⟩ := Nat.exists_eq_add_of_le' (Nat.le_of_add_left_le hf)
        rw [matchAt, if_neg hc, if_neg heq, if_neg h0, hk]
        exact hn fuel (by omega)
      · rcases hans with ⟨hno, hnone⟩ | ⟨off, hyes, hreach⟩
        · refine Or.inl ⟨hno, fun off hreach => ?_⟩
          rcases reaches_iff.mp hreach with ⟨_, he⟩ | ⟨_, _, rest, hb, hreach, _⟩
          · exact heq he
          · cases hb with
            | si => exact hnone rest hreach
            | vmi h => simp [hk] at h
        · refine Or.inr ⟨off, hyes, reaches_iff.mpr (Or.inr ⟨0, _, off, .si hk, hreach, ?_⟩)⟩
          rw [zero_add]
  | @vmi t h0 hk hb ih =>
    by_cases heq : m.tiEqual t c = true
    · exact hequal heq
    · -- As many levels as the deepest base needs.
      have hcommon : ∃ n, ∀ b < m.baseCount t, ∃ r,
          (∀ fuel, n ≤ fuel → m.matchAt abi c fuel (m.baseType t b) = some r) ∧
            Answers m abi (m.baseType t b) c r := by
        choose! n hn using ih
        refine ⟨(Finset.range (m.baseCount t)).sup n, fun b hb => ?_⟩
        obtain ⟨r, hr, hans⟩ := hn b hb
        exact ⟨r, fun fuel hf => hr fuel ((Finset.le_sup (Finset.mem_range.mpr hb)).trans hf), hans⟩
      obtain ⟨n, hn⟩ := hcommon
      obtain ⟨r, hr, hspec⟩ := matchBases_spec (fun b hb => by
        obtain ⟨r, hr, hans⟩ := hn b hb
        exact ⟨r, hr n le_rfl, hans⟩) 64 le_rfl
      refine ⟨n + 1, r, fun fuel hf => ?_, ?_⟩
      · obtain ⟨fuel, rfl⟩ := Nat.exists_eq_add_of_le' (Nat.le_of_add_left_le hf)
        rw [matchAt, if_neg hc, if_neg heq, if_neg h0, hk, ← hr]
        refine matchBases_congr (fun b hb => ?_) 64
        obtain ⟨r, hr, _⟩ := hn b hb
        rw [hr fuel (by omega), hr n le_rfl]
      · rcases hspec with ⟨hno, hnone⟩ | ⟨b, off, hyes, hentry, hreach⟩
        · refine Or.inl ⟨hno, fun off hreach => ?_⟩
          rcases reaches_iff.mp hreach with ⟨_, he⟩ | ⟨_, _, rest, hb, hreach, _⟩
          · exact heq he
          · cases hb with
            | si h => simp [hk] at h
            | vmi h hb hu => exact hnone _ ⟨Nat.zero_le _, hb, hu⟩ rest hreach
        · exact Or.inr ⟨_, hyes, reaches_iff.mpr
            (Or.inr ⟨_, _, off, .vmi hk hentry.2.1 hentry.2.2, hreach, rfl⟩)⟩

theorem public_of_followed (b f : ℕ) (h : Followed b f) : Public b f := h.1

theorem nonVirtual_of_public (b f : ℕ) (h : Public b f) : NonVirtual b f := h.1

/-- `struct A {}; struct B : A {}; struct C : A {}; struct D : B, C {}`: the objects stand at 0x100,
0x200, 0x300 and 0x400, and `C` lies four bytes into `D`. -/
def diamond : Memory where
  word
    | 0x100 => 1 | 0x104 => 11
    | 0x200 => 2 | 0x204 => 12 | 0x208 => 0x100
    | 0x300 => 2 | 0x304 => 13 | 0x308 => 0x100
    | 0x400 => 3 | 0x404 => 14 | 0x408 => 0 | 0x40c => 2
    | 0x410 => 0x200 | 0x414 => 0x002 | 0x418 => 0x300 | 0x41c => 0x402
    | _ => 0
  text
    | 11 => "1A" | 12 => "1B" | 13 => "1C" | 14 => "1D" | _ => ""

/-- The vtables that `diamond` names. -/
def diamondAbi : Abi := ⟨1, 2, 3⟩

theorem hierarchy_diamond : diamond.Hierarchy diamondAbi 0x400 := by
  have hbase : diamond.Hierarchy diamondAbi 0x100 := .cls (by decide) rfl
  refine .vmi (by decide) rfl fun b hb => ?_
  have hcount : diamond.baseCount 0x400 = 2 := rfl
  rw [hcount] at hb
  interval_cases b
  · exact .si (t := 0x200) (by decide) rfl hbase
  · exact .si (t := 0x300) (by decide) rfl hbase

theorem diamond_reaches {b u : ℕ} {off : ℤ} (hb : b < 2)
    (hoff : diamond.baseOffset 0x400 b = off) (hu : diamond.baseType 0x400 b = u)
    (hsi : diamond.kind diamondAbi u = .si) (hbase : diamond.siBase u = 0x100)
    (hf : Followed b (diamond.offFlags 0x400 b)) :
    diamond.Reaches diamondAbi Followed 0x400 0x100 off := by
  have hself : diamond.Reaches diamondAbi Followed (diamond.siBase u) 0x100 0 := by
    rw [hbase]
    exact ⟨0x100, .refl _, rfl⟩
  have hstep : diamond.Reaches diamondAbi Followed u 0x100 0 :=
    reaches_iff.mpr (Or.inr ⟨0, _, 0, .si hsi, hself, rfl⟩)
  subst hu hoff
  exact reaches_iff.mpr (Or.inr ⟨_, _, 0, .vmi rfl hb hf, hstep, (add_zero _).symm⟩)

end Memory
end Aret.Eh.Rtti
