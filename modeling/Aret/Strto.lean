/-
Numbers in texts, as the C library reads them.

Design notes: a character is its code, so that the units of a wide text are texts as
they are.  A character of 128 and more is no digit, letter or blank.
-/
import Mathlib.Data.List.TakeWhile
import Mathlib.Tactic

namespace Aret.Strto

abbrev Text := List ℕ

/-! ### Characters -/

def isSpace (c : ℕ) : Bool := c = 32 || (9 ≤ c && c ≤ 13)

def digitValue (c : ℕ) : ℕ :=
  if 48 ≤ c ∧ c ≤ 57 then c - 48
  else if 97 ≤ c ∧ c ≤ 122 then c - 87
  else if 65 ≤ c ∧ c ≤ 90 then c - 55
  else 36

def isDigit (base c : ℕ) : Bool := digitValue c < base

def value (base : ℕ) (ds : Text) : ℕ := ds.foldl (fun n c => base * n + digitValue c) 0

/-! ### The scan -/

structure Number where
  neg : Bool
  value : ℕ
  length : ℕ
deriving DecidableEq

def sign : Text → Bool × ℕ
  | 45 :: _ => (true, 1)
  | 43 :: _ => (false, 1)
  | _ => (false, 0)

/-- `0x` and `0X` are a prefix where a digit is behind them. -/
def isHexPrefix : Text → Bool
  | 48 :: x :: d :: _ => (x = 120 || x = 88) && isDigit 16 d
  | _ => false

def radix (base : ℕ) (t : Text) : ℕ × ℕ :=
  if (base = 0 ∨ base = 16) ∧ isHexPrefix t then (16, 2)
  else if base = 0 then (if t.head? = some 48 then 8 else 10, 0)
  else (base, 0)

def scan (base : ℕ) (t : Text) : Option Number :=
  let t₁ := t.dropWhile isSpace
  let t₂ := t₁.drop (sign t₁).2
  let r := radix base t₂
  let ds := (t₂.drop r.2).takeWhile (isDigit r.1)
  if ds = [] then none
  else
    some ⟨(sign t₁).1, value r.1 ds,
      (t.takeWhile isSpace).length + (sign t₁).2 + r.2 + ds.length⟩

/-! ### The texts of numbers -/

inductive Signed : Text → Bool → Prop
  | none : Signed [] false
  | plus : Signed [43] false
  | minus : Signed [45] true

inductive Prefixed (base : ℕ) : Text → Text → ℕ → Prop
  | hex (x d : ℕ) (ds : Text) (hbase : base = 0 ∨ base = 16) (hx : x = 120 ∨ x = 88)
      (hd : isDigit 16 d) : Prefixed base [48, x] (d :: ds) 16
  | octal (ds : Text) (hbase : base = 0) : Prefixed base [] (48 :: ds) 8
  | decimal (ds : Text) (hbase : base = 0) (hds : ds.head? ≠ some 48) : Prefixed base [] ds 10
  | given (ds : Text) (hbase : base ≠ 0) : Prefixed base [] ds base

inductive Form (base : ℕ) : Text → Number → Prop
  | mk (sp sg pf ds : Text) (neg : Bool) (b : ℕ) (hsp : ∀ c ∈ sp, isSpace c) (hsg : Signed sg neg)
      (hpf : Prefixed base pf ds b) (hds : ∀ c ∈ ds, isDigit b c) (hne : ds ≠ []) :
      Form base (sp ++ (sg ++ (pf ++ ds)))
        ⟨neg, Strto.value b ds, (sp ++ (sg ++ (pf ++ ds))).length⟩

variable {base b : ℕ} {sp sg pf ds rest t u : Text} {neg : Bool} {n m : Number}

theorem not_isSpace_of_isDigit {c : ℕ} (hb : b ≤ 36) (h : isDigit b c) :
    isSpace c = false ∧ c ≠ 43 ∧ c ≠ 45 ∧ c < 128 := by
  have hlt : digitValue c < b := of_decide_eq_true h
  have hcases : (48 ≤ c ∧ c ≤ 57) ∨ (97 ≤ c ∧ c ≤ 122) ∨ (65 ≤ c ∧ c ≤ 90) := by
    by_contra hno
    rw [not_or, not_or] at hno
    rw [digitValue, if_neg hno.1, if_neg hno.2.1, if_neg hno.2.2] at hlt
    omega
  have hspace : isSpace c = false := by
    rw [isSpace, Bool.or_eq_false_iff, Bool.and_eq_false_iff, decide_eq_false_iff_not,
      decide_eq_false_iff_not, decide_eq_false_iff_not]
    omega
  exact ⟨hspace, by omega, by omega, by omega⟩

theorem takeWhile_append_of_head {p : ℕ → Bool} {l r : Text} (hl : ∀ c ∈ l, p c)
    (hr : ∀ c ∈ r.head?, p c = false) :
    (l ++ r).takeWhile p = l ∧ (l ++ r).dropWhile p = r := by
  have hnone : r.takeWhile p = [] ∧ r.dropWhile p = r := by
    cases r with
    | nil => exact ⟨rfl, rfl⟩
    | cons c r =>
      have hc : ¬p c = true := by
        rw [hr c rfl]
        exact Bool.false_ne_true
      exact ⟨List.takeWhile_cons_of_neg hc, List.dropWhile_cons_of_neg hc⟩
  rw [List.takeWhile_append_of_pos hl, List.dropWhile_append_of_pos hl, hnone.1, hnone.2]
  exact ⟨List.append_nil l, rfl⟩

theorem Prefixed.le (h : Prefixed base pf ds b) (hb : base ≤ 36) : b ≤ 36 := by
  cases h with
  | hex => decide
  | octal => decide
  | decimal => decide
  | given => exact hb

theorem Prefixed.head (rest : Text) (h : Prefixed base pf ds b) (hb : base ≤ 36)
    (hds : ∀ c ∈ ds, isDigit b c)
    (hne : ds ≠ []) : ∃ c l, pf ++ (ds ++ rest) = c :: l ∧ isSpace c = false ∧ c ≠ 43 ∧ c ≠ 45 := by
  have hdigit : ∃ c l, ds ++ rest = c :: l ∧ isSpace c = false ∧ c ≠ 43 ∧ c ≠ 45 := by
    obtain ⟨c, l, rfl⟩ := List.exists_cons_of_ne_nil hne
    obtain ⟨hspace, hplus, hminus, -⟩ :=
      not_isSpace_of_isDigit (h.le hb) (hds c List.mem_cons_self)
    exact ⟨c, l ++ rest, rfl, hspace, hplus, hminus⟩
  cases h with
  | hex x d ds => exact ⟨48, x :: (d :: ds ++ rest), rfl, by decide, by decide, by decide⟩
  | octal => exact hdigit
  | decimal => exact hdigit
  | given => exact hdigit

theorem sign_append {r : Text} (h : Signed sg neg) (hr : ∃ c l, r = c :: l ∧ c ≠ 43 ∧ c ≠ 45) :
    sign (sg ++ r) = (neg, sg.length) := by
  obtain ⟨c, l, rfl, hplus, hminus⟩ := hr
  cases h with
  | none =>
    rw [List.nil_append, sign]
    · rfl
    · intro _ heq
      exact hminus (List.cons.inj heq).1
    · intro _ heq
      exact hplus (List.cons.inj heq).1
  | plus => rfl
  | minus => rfl

theorem scan_pieces (rest : Text) (hsp : ∀ c ∈ sp, isSpace c) (hsg : Signed sg neg)
    (hpf : Prefixed base pf ds b) (hb : base ≤ 36) (hds : ∀ c ∈ ds, isDigit b c) (hne : ds ≠ [])
    (hradix : radix base (pf ++ (ds ++ rest)) = (b, pf.length)) :
    scan base (sp ++ (sg ++ (pf ++ (ds ++ rest)))) =
      some ⟨neg, value b (ds ++ rest.takeWhile (isDigit b)),
        (sp ++ (sg ++ (pf ++ (ds ++ rest.takeWhile (isDigit b))))).length⟩ := by
  obtain ⟨c, l, hhead, hspace, hplus, hminus⟩ := hpf.head rest hb hds hne
  have hsign := sign_append hsg ⟨c, l, hhead, hplus, hminus⟩
  have hnospace : ∀ c' ∈ (sg ++ (pf ++ (ds ++ rest))).head?, isSpace c' = false := by
    intro c' hc'
    cases hsg with
    | none =>
      rw [List.nil_append, hhead] at hc'
      obtain rfl := Option.some.inj hc'
      exact hspace
    | plus =>
      obtain rfl := Option.some.inj hc'
      decide
    | minus =>
      obtain rfl := Option.some.inj hc'
      decide
  obtain ⟨htake, hdrop⟩ := takeWhile_append_of_head hsp hnospace
  have hdigits : (ds ++ rest).takeWhile (isDigit b) = ds ++ rest.takeWhile (isDigit b) :=
    List.takeWhile_append_of_pos hds
  have hsome : ds ++ rest.takeWhile (isDigit b) ≠ [] := List.append_ne_nil_of_left_ne_nil hne _
  rw [scan, htake, hdrop, hsign, List.drop_left, hradix, List.drop_left, hdigits, if_neg hsome]
  simp only [List.length_append, Nat.add_assoc]

theorem isHexPrefix_iff :
    isHexPrefix t = true ↔
      ∃ x d l, t = 48 :: x :: d :: l ∧ (x = 120 ∨ x = 88) ∧ isDigit 16 d = true := by
  unfold isHexPrefix
  split
  · rename_i x d l
    rw [Bool.and_eq_true, Bool.or_eq_true, decide_eq_true_eq, decide_eq_true_eq]
    constructor
    · rintro ⟨hx, hd⟩
      exact ⟨x, d, l, rfl, hx, hd⟩
    · rintro ⟨x', d', l', heq, hx, hd⟩
      obtain ⟨rfl, rfl, rfl⟩ : x = x' ∧ d = d' ∧ l = l' := by simpa using heq
      exact ⟨hx, hd⟩
  · rename_i hno
    constructor
    · exact fun h => absurd h Bool.false_ne_true
    · rintro ⟨x, d, l, rfl, -⟩
      exact absurd rfl (hno x d l)

def ZeroPrefix (base : ℕ) (ds rest : Text) : Prop :=
  ds = [48] ∧ (base = 0 ∨ base = 16) ∧
    ∃ x d l, rest = x :: d :: l ∧ (x = 120 ∨ x = 88) ∧ isDigit 16 d

theorem zeroPrefix_of_isHexPrefix (hbase : base = 0 ∨ base = 16) (hb : b ≤ 16)
    (hds : ∀ c ∈ ds, isDigit b c) (hne : ds ≠ []) (h : isHexPrefix (ds ++ rest)) :
    ZeroPrefix base ds rest := by
  obtain ⟨x, d, l, heq, hx, hd⟩ := isHexPrefix_iff.mp h
  obtain ⟨c, ds, rfl⟩ := List.exists_cons_of_ne_nil hne
  obtain ⟨rfl, htail⟩ := List.cons.inj heq
  cases ds with
  | nil => exact ⟨rfl, hbase, x, d, l, htail, hx, hd⟩
  | cons y ds =>
    -- the letter would be a digit of the base
    obtain ⟨rfl, -⟩ := List.cons.inj htail
    have hy : digitValue y < b := of_decide_eq_true (hds y (by simp))
    have hvalue : digitValue y = 33 := by rcases hx with rfl | rfl <;> rfl
    omega

theorem radix_append (hpf : Prefixed base pf ds b) (hds : ∀ c ∈ ds, isDigit b c) (hne : ds ≠ [])
    (hzero : pf = [] → ¬ZeroPrefix base ds rest) :
    radix base (pf ++ (ds ++ rest)) = (b, pf.length) := by
  cases hpf with
  | hex x d ds hbase hx hd =>
    have hpre : isHexPrefix ([48, x] ++ (d :: ds ++ rest)) = true :=
      isHexPrefix_iff.mpr ⟨x, d, ds ++ rest, rfl, hx, hd⟩
    rw [radix, if_pos ⟨hbase, hpre⟩]
    rfl
  | octal ds hbase =>
    have hno := hzero rfl
    have hpre : ¬((base = 0 ∨ base = 16) ∧ isHexPrefix ([] ++ (48 :: ds ++ rest)) = true) :=
      fun h => hno (zeroPrefix_of_isHexPrefix h.1 (by decide) hds hne h.2)
    rw [radix, if_neg hpre, if_pos hbase]
    rfl
  | decimal ds hbase hhead =>
    have hfirst : (ds ++ rest).head? ≠ some 48 := by
      rwa [List.head?_append_of_ne_nil _ hne]
    have hpre : ¬((base = 0 ∨ base = 16) ∧ isHexPrefix ([] ++ (ds ++ rest)) = true) := by
      rintro ⟨-, h⟩
      obtain ⟨x, d, l, heq, -⟩ := isHexPrefix_iff.mp h
      rw [List.nil_append] at heq
      rw [heq] at hfirst
      exact hfirst rfl
    rw [radix, if_neg hpre, if_pos hbase, List.nil_append, if_neg hfirst]
    rfl
  | given ds hbase =>
    have hno := hzero rfl
    have hpre : ¬((base = 0 ∨ base = 16) ∧ isHexPrefix ([] ++ (ds ++ rest)) = true) := by
      rintro ⟨hzero16, h⟩
      have h16 := hzero16.resolve_left hbase
      exact hno (zeroPrefix_of_isHexPrefix hzero16 h16.le hds hne h)
    rw [radix, if_neg hpre, if_neg hbase]
    rfl

theorem scan_append (rest : Text) (hsp : ∀ c ∈ sp, isSpace c) (hsg : Signed sg neg)
    (hpf : Prefixed base pf ds b) (hb : base ≤ 36) (hds : ∀ c ∈ ds, isDigit b c) (hne : ds ≠ [])
    (hzero : pf = [] → ¬ZeroPrefix base ds rest) (hrest : ∀ c ∈ rest.head?, isDigit b c = false) :
    scan base (sp ++ (sg ++ (pf ++ (ds ++ rest)))) =
      some ⟨neg, value b ds, (sp ++ (sg ++ (pf ++ ds))).length⟩ := by
  have hnone : rest.takeWhile (isDigit b) = [] := by
    have h := (takeWhile_append_of_head (l := []) (fun c hc => absurd hc List.not_mem_nil) hrest).1
    exact h
  rw [scan_pieces rest hsp hsg hpf hb hds hne (radix_append hpf hds hne hzero), hnone, List.append_nil]

theorem scan_form (h : Form base u n) (hb : base ≤ 36) : scan base u = some n := by
  obtain ⟨sp, sg, pf, ds, neg, b, hsp, hsg, hpf, hds, hne⟩ := h
  have hzero : pf = [] → ¬ZeroPrefix base ds [] := by
    rintro - ⟨-, -, x, d, l, heq, -⟩
    cases heq
  have h := scan_append [] hsp hsg hpf hb hds hne hzero
    fun c hc => absurd hc (Option.not_mem_none c)
  rwa [List.append_nil] at h

theorem scan_form_append (h : Form base u n) (hb : base ≤ 36) (rest : Text) :
    ∃ m, scan base (u ++ rest) = some m ∧ u.length ≤ m.length := by
  obtain ⟨sp, sg, pf, ds, neg, b, hsp, hsg, hpf, hds, hne⟩ := h
  have hassoc : sp ++ (sg ++ (pf ++ ds)) ++ rest = sp ++ (sg ++ (pf ++ (ds ++ rest))) := by
    simp only [List.append_assoc]
  rw [hassoc]
  by_cases hzero : pf = [] ∧ ZeroPrefix base ds rest
  · obtain ⟨rfl, rfl, hbase, x, d, l, rfl, hx, hd⟩ := hzero
    have hpf' : Prefixed base [48, x] [d] 16 := .hex x d [] hbase hx hd
    have hds' : ∀ c ∈ [d], isDigit 16 c = true := List.forall_mem_singleton.mpr hd
    have hscan := scan_pieces l hsp hsg hpf' hb hds' (List.cons_ne_nil d [])
      (radix_append hpf' hds' (List.cons_ne_nil d []) fun hno => absurd hno (List.cons_ne_nil _ _))
    refine ⟨_, hscan, ?_⟩
    simp only [List.length_append, List.length_cons, List.length_nil]
    omega
  · refine ⟨_, scan_pieces rest hsp hsg hpf hb hds hne
      (radix_append hpf hds hne fun hpf hno => hzero ⟨hpf, hno⟩), ?_⟩
    simp only [List.length_append]
    omega

theorem signed_take (t : Text) : Signed (t.take (sign t).2) (sign t).1 := by
  unfold sign
  split
  · exact .minus
  · exact .plus
  · exact .none

theorem prefixed_take (base : ℕ) (t : Text)
    (hne : (t.drop (radix base t).2).takeWhile (isDigit (radix base t).1) ≠ []) :
    Prefixed base (t.take (radix base t).2)
      ((t.drop (radix base t).2).takeWhile (isDigit (radix base t).1)) (radix base t).1 := by
  by_cases hhex : (base = 0 ∨ base = 16) ∧ isHexPrefix t = true
  · obtain ⟨x, d, l, rfl, hx, hd⟩ := isHexPrefix_iff.mp hhex.2
    rw [radix, if_pos hhex]
    have hdigits : (d :: l).takeWhile (isDigit 16) = d :: l.takeWhile (isDigit 16) :=
      List.takeWhile_cons_of_pos hd
    change Prefixed base [48, x] ((d :: l).takeWhile (isDigit 16)) 16
    rw [hdigits]
    exact .hex x d _ hhex.1 hx hd
  · rw [radix, if_neg hhex] at hne ⊢
    by_cases hbase : base = 0
    · rw [if_pos hbase] at hne ⊢
      by_cases hhead : t.head? = some 48
      · obtain ⟨l, rfl⟩ : ∃ l, t = 48 :: l := ⟨t.tail, (List.cons_head?_tail hhead).symm⟩
        rw [if_pos hhead]
        exact .octal _ hbase
      · rw [if_neg hhead] at hne ⊢
        refine .decimal _ hbase fun hdigits => hhead ?_
        rw [List.drop_zero] at hdigits
        cases t with
        | nil => exact hdigits
        | cons c l =>
          by_cases hc : isDigit 10 c = true
          · rwa [List.takeWhile_cons_of_pos hc] at hdigits
          · rw [List.takeWhile_cons_of_neg hc] at hdigits
            cases hdigits
    · rw [if_neg hbase]
      exact .given _ hbase

theorem length_take_sign (t : Text) : (t.take (sign t).2).length = (sign t).2 := by
  unfold sign
  split <;> rfl

theorem form_of_scan (h : scan base t = some n) : ∃ u, u <+: t ∧ Form base u n := by
  rw [scan] at h
  split_ifs at h with hne
  obtain rfl := Option.some.inj h
  -- cut into blanks, sign, prefix and digits, as the scan reads them
  have hspaces : ∀ c ∈ t.takeWhile isSpace, isSpace c := fun c hc => List.mem_takeWhile_imp hc
  have hsplit : t = t.takeWhile isSpace ++ t.dropWhile isSpace :=
    (List.takeWhile_append_dropWhile ..).symm
  generalize t.takeWhile isSpace = sp at hsplit hspaces ⊢
  generalize t.dropWhile isSpace = t₁ at hsplit hne ⊢
  have hsign := signed_take t₁
  have hsignLen := length_take_sign t₁
  have hsplit₁ : t₁ = t₁.take (sign t₁).2 ++ t₁.drop (sign t₁).2 := (List.take_append_drop ..).symm
  generalize t₁.take (sign t₁).2 = sg at hsign hsignLen hsplit₁
  generalize t₁.drop (sign t₁).2 = t₂ at hsplit₁ hne ⊢
  have hpreed := prefixed_take base t₂ hne
  have hsplit₂ : t₂ = t₂.take (radix base t₂).2 ++ t₂.drop (radix base t₂).2 :=
    (List.take_append_drop ..).symm
  have hpreLen : (t₂.take (radix base t₂).2).length = (radix base t₂).2 := by
    rw [List.length_take, min_eq_left]
    by_contra hlt
    rw [List.drop_eq_nil_of_le (Nat.le_of_not_le hlt)] at hne
    exact hne rfl
  have hsplit₃ : t₂.drop (radix base t₂).2 =
      (t₂.drop (radix base t₂).2).takeWhile (isDigit (radix base t₂).1) ++
        (t₂.drop (radix base t₂).2).dropWhile (isDigit (radix base t₂).1) :=
    (List.takeWhile_append_dropWhile ..).symm
  have hdigits : ∀ c ∈ (t₂.drop (radix base t₂).2).takeWhile (isDigit (radix base t₂).1),
      isDigit (radix base t₂).1 c := fun c hc => List.mem_takeWhile_imp hc
  generalize t₂.take (radix base t₂).2 = pf at hpreed hpreLen hsplit₂
  generalize (t₂.drop (radix base t₂).2).takeWhile (isDigit (radix base t₂).1) = ds
    at hpreed hsplit₃ hdigits hne ⊢
  refine ⟨sp ++ (sg ++ (pf ++ ds)), ?_, ?_⟩
  · rw [hsplit, hsplit₁, hsplit₂, hsplit₃]
    refine List.prefix_append_right_inj sp |>.mpr ?_
    refine List.prefix_append_right_inj sg |>.mpr ?_
    exact List.prefix_append_right_inj pf |>.mpr (List.prefix_append ds _)
  · have hform : Form base _ _ := .mk sp sg pf ds _ _ hspaces hsign hpreed hdigits hne
    rw [List.length_append, List.length_append, List.length_append, hsignLen, hpreLen,
      ← Nat.add_assoc, ← Nat.add_assoc] at hform
    exact hform

/-! ### The longest number -/

theorem Form.length_eq (h : Form base u n) : n.length = u.length := by
  cases h
  rfl

theorem Form.length_pos (h : Form base u n) : 0 < u.length := by
  obtain ⟨sp, sg, pf, ds, neg, b, -, -, -, -, hne⟩ := h
  have hds := List.length_pos_of_ne_nil hne
  simp only [List.length_append]
  omega

theorem Form.lt (h : Form base u n) (hb : base ≤ 36) : ∀ c ∈ u, c < 128 ∧ c ≠ 0 := by
  obtain ⟨sp, sg, pf, ds, neg, b, hsp, hsg, hpf, hds, -⟩ := h
  have hb' := hpf.le hb
  intro c hc
  simp only [List.mem_append] at hc
  rcases hc with hc | hc | hc | hc
  · have hspace := hsp c hc
    simp only [isSpace, Bool.or_eq_true, Bool.and_eq_true, decide_eq_true_eq] at hspace
    omega
  · cases hsg with
    | none => exact absurd hc List.not_mem_nil
    | plus =>
      rw [List.mem_singleton.mp hc]
      decide
    | minus =>
      rw [List.mem_singleton.mp hc]
      decide
  · cases hpf with
    | hex x d ds hbase hx hd =>
      simp only [List.mem_cons, List.not_mem_nil, or_false] at hc
      omega
    | octal => exact absurd hc List.not_mem_nil
    | decimal => exact absurd hc List.not_mem_nil
    | given => exact absurd hc List.not_mem_nil
  · have hdigit := hds c hc
    refine ⟨(not_isSpace_of_isDigit hb' hdigit).2.2.2, ?_⟩
    rintro rfl
    have hlt : digitValue 0 < b := of_decide_eq_true hdigit
    have hvalue : digitValue 0 = 36 := rfl
    omega

theorem length_le_of_scan (hb : base ≤ 36) (h : scan base t = some n) (hu : Form base u m)
    (hpre : u <+: t) : u.length ≤ n.length := by
  obtain ⟨rest, rfl⟩ := hpre
  obtain ⟨m', hm', hle⟩ := scan_form_append hu hb rest
  rw [h] at hm'
  obtain rfl := Option.some.inj hm'
  exact hle

theorem scan_congr {t' : Text} (hb : base ≤ 36)
    (h : ∀ u n, Form base u n → (u <+: t ↔ u <+: t')) : scan base t = scan base t' := by
  -- the longest number of one of them is one of the other
  have hone : ∀ t t' : Text, (∀ u n, Form base u n → (u <+: t ↔ u <+: t')) → ∀ n,
      scan base t = some n → scan base t' = some n := by
    intro t t' hsame n hn
    obtain ⟨u, hu, hform⟩ := form_of_scan hn
    have hu' := (hsame u n hform).mp hu
    cases hn' : scan base t' with
    | none =>
      obtain ⟨rest, hrest⟩ := hu'
      obtain ⟨m, hm, -⟩ := scan_form_append hform hb rest
      rw [hrest, hn'] at hm
      cases hm
    | some m =>
      obtain ⟨v, hv, hvform⟩ := form_of_scan hn'
      have hle := length_le_of_scan hb hn' hform hu'
      have hge := length_le_of_scan hb hn hvform ((hsame v m hvform).mpr hv)
      rw [hform.length_eq] at hge
      rw [hvform.length_eq] at hle
      have huv : u = v :=
        (List.prefix_of_prefix_length_le hu' hv hle).eq_of_length (le_antisymm hle hge)
      subst huv
      rw [← scan_form hform hb, ← scan_form hvform hb]
  cases hn : scan base t with
  | some n => exact (hone t t' h n hn).symm
  | none =>
    cases hn' : scan base t' with
    | none => rfl
    | some m =>
      have hm := hone t' t (fun u n hu => (h u n hu).symm) m hn'
      rw [hn] at hm
      cases hm

def scanEnd (base : ℕ) (t : Text) : ℕ := (scan base t).elim 0 Number.length

theorem length_le_scanEnd (hb : base ≤ 36) (hu : Form base u n) (hpre : u <+: t) :
    u.length ≤ scanEnd base t := by
  obtain ⟨rest, rfl⟩ := hpre
  obtain ⟨m, hm, hle⟩ := scan_form_append hu hb rest
  rw [scanEnd, hm]
  exact hle

theorem exists_form_of_scanEnd (h : 0 < scanEnd base t) :
    ∃ u n, u <+: t ∧ Form base u n ∧ u.length = scanEnd base t := by
  cases hn : scan base t with
  | none =>
    rw [scanEnd, hn] at h
    exact absurd h (lt_irrefl 0)
  | some n =>
    obtain ⟨u, hu, hform⟩ := form_of_scan hn
    refine ⟨u, n, hu, hform, ?_⟩
    rw [scanEnd, hn]
    exact hform.length_eq.symm

/-! ### Integers -/

def Supported (base : ℤ) : Prop := base = 0 ∨ 2 ≤ base ∧ base ≤ 36

instance (base : ℤ) : Decidable (Supported base) := inferInstanceAs (Decidable (_ ∨ _))

theorem Supported.le {base : ℤ} (h : Supported base) : base.toNat ≤ 36 := by
  unfold Supported at h
  omega

/-- An integer of `w` bits, with the next one where it does not fit. -/
def Number.signed (w : ℕ) (n : Number) : ℤ :=
  if n.neg then max (-2 ^ (w - 1)) (-n.value) else min (2 ^ (w - 1) - 1) n.value

def Number.unsigned (w : ℕ) (n : Number) : ℕ :=
  if 2 ^ w ≤ n.value then 2 ^ w - 1 else if n.neg then (2 ^ w - n.value) % 2 ^ w else n.value

/-- `strtol` for integers of `w` bits, and the place of the end pointer.  For other bases it
returns 0 and does not set the pointer. -/
def strtol (w : ℕ) (base : ℤ) (t : Text) : ℤ × Option ℕ :=
  if Supported base then
    match scan base.toNat t with
    | some n => (n.signed w, some n.length)
    | none => (0, some 0)
  else (0, none)

def strtoul (w : ℕ) (base : ℤ) (t : Text) : ℕ × Option ℕ :=
  if Supported base then
    match scan base.toNat t with
    | some n => (n.unsigned w, some n.length)
    | none => (0, some 0)
  else (0, none)

end Aret.Strto
