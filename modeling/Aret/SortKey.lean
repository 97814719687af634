/-
Flat keys whose order is the order of several levels.

A key is a list of levels with a separator after each; keys are compared element by element.
-/
import Mathlib.Data.List.DropRight

namespace SortKey

variable {α β : Type*}

abbrev lex (cmp : α → α → Ordering) (x y : List α) : Ordering := List.compareLex cmp x y

def lexPad (cmp : α → α → Ordering) (d : α) : List α → List α → Ordering
  | [], [] => .eq
  | [], b :: y => (cmp d b).then (lexPad cmp d [] y)
  | a :: x, [] => (cmp a d).then (lexPad cmp d x [])
  | a :: x, b :: y => (cmp a b).then (lexPad cmp d x y)

def trim [DecidableEq α] (d : α) (x : List α) : List α := x.rdropWhile (· = d)

variable {cmp : α → α → Ordering}

@[simp] theorem lex_nil : lex cmp [] [] = .eq := List.compareLex_nil_nil

@[simp] theorem lex_nil_cons {b : α} {y : List α} : lex cmp [] (b :: y) = .lt :=
  List.compareLex_nil_cons

@[simp] theorem lex_cons_nil {a : α} {x : List α} : lex cmp (a :: x) [] = .gt :=
  List.compareLex_cons_nil

theorem lex_cons {a b : α} {x y : List α} :
    lex cmp (a :: x) (b :: y) = (cmp a b).then (lex cmp x y) :=
  List.compareLex_cons_cons

theorem lex_take (x y : List α) :
    lex cmp x y = (lex cmp (x.take (min x.length y.length)) (y.take (min x.length y.length))).then
      (compare x.length y.length) := by
  induction x generalizing y with
  | nil =>
    cases y with
    | nil => rfl
    | cons b y =>
      have hlt : compare 0 (b :: y).length = .lt := Nat.compare_eq_lt.mpr (Nat.succ_pos y.length)
      rw [lex_nil_cons, List.length_nil, Nat.zero_min, List.take_zero, List.take_zero, lex_nil,
        Ordering.eq_then, hlt]
  | cons a x ih =>
    cases y with
    | nil =>
      have hgt : compare (a :: x).length 0 = .gt := Nat.compare_eq_gt.mpr (Nat.succ_pos x.length)
      rw [lex_cons_nil, List.length_nil, Nat.min_zero, List.take_zero, List.take_zero, lex_nil,
        Ordering.eq_then, hgt]
    | cons b y =>
      have hsucc : compare (x.length + 1) (y.length + 1) = compare x.length y.length := by
        simp only [Nat.compare_eq_ite_lt, Nat.add_lt_add_iff_right]
      rw [lex_cons, ih y, List.length_cons, List.length_cons, Nat.succ_min_succ,
        List.take_succ_cons, List.take_succ_cons, lex_cons, Ordering.then_assoc, hsucc]

section Blocks

variable {cmp' : β → β → Ordering} {f : β → List α}

theorem lex_flatMap {x y : List β} (hne : ∀ c, f c ≠ [])
    (hblock : ∀ c ∈ x, ∀ c' ∈ y, ∀ a b,
      lex cmp (f c ++ a) (f c' ++ b) = (cmp' c c').then (lex cmp a b)) :
    lex cmp (x.flatMap f) (y.flatMap f) = lex cmp' x y := by
  induction x generalizing y with
  | nil =>
    cases y with
    | nil => rfl
    | cons b y =>
      obtain ⟨a, r, har⟩ := List.exists_cons_of_ne_nil (hne b)
      rw [List.flatMap_nil, List.flatMap_cons, har, List.cons_append, lex_nil_cons, lex_nil_cons]
  | cons a x ih =>
    cases y with
    | nil =>
      obtain ⟨b, r, hbr⟩ := List.exists_cons_of_ne_nil (hne a)
      rw [List.flatMap_nil, List.flatMap_cons, hbr, List.cons_append, lex_cons_nil, lex_cons_nil]
    | cons b y =>
      have hrest : lex cmp (x.flatMap f) (y.flatMap f) = lex cmp' x y :=
        ih fun c hc c' hc' =>
          hblock c (List.mem_cons_of_mem a hc) c' (List.mem_cons_of_mem b hc')
      rw [List.flatMap_cons, List.flatMap_cons, hblock a List.mem_cons_self b List.mem_cons_self,
        hrest, lex_cons]

end Blocks

variable [Std.LawfulEqCmp cmp]

theorem lex_cons_self (a : α) (x y : List α) : lex cmp (a :: x) (a :: y) = lex cmp x y := by
  have hself : cmp a a = .eq := Std.LawfulEqCmp.compare_eq_iff_eq.mpr rfl
  rw [lex_cons, hself, Ordering.eq_then]

variable [Std.OrientedCmp cmp]

theorem lex_sep {sep : α} {x y a b : List α} (hx : ∀ c ∈ x, cmp sep c = .lt)
    (hy : ∀ c ∈ y, cmp sep c = .lt) :
    lex cmp (x ++ sep :: a) (y ++ sep :: b) = (lex cmp x y).then (lex cmp a b) := by
  induction x generalizing y with
  | nil =>
    cases y with
    | nil => exact lex_cons_self sep a b
    | cons d y =>
      rw [List.nil_append, List.cons_append, lex_cons, hy d List.mem_cons_self, lex_nil_cons,
        Ordering.lt_then, Ordering.lt_then]
  | cons c x ih =>
    cases y with
    | nil =>
      have hgt : cmp c sep = .gt := Std.OrientedCmp.gt_iff_lt.mpr (hx c List.mem_cons_self)
      rw [List.nil_append, List.cons_append, lex_cons, hgt, lex_cons_nil, Ordering.gt_then,
        Ordering.gt_then]
    | cons d y =>
      have hrest := ih (fun e he => hx e (List.mem_cons_of_mem c he))
        (fun e he => hy e (List.mem_cons_of_mem d he))
      rw [List.cons_append, List.cons_append, lex_cons, lex_cons, hrest, Ordering.then_assoc]

section Trim

variable [DecidableEq α] {d : α}

def trimCons (d c : α) (r : List α) : List α := if c = d ∧ r = [] then [] else c :: r

theorem trim_nil : trim d ([] : List α) = [] := List.rdropWhile_nil _

theorem trim_cons (c : α) (x : List α) : trim d (c :: x) = trimCons d c (trim d x) := by
  induction x using List.reverseRecOn with
  | nil =>
    rw [trim_nil, trim, List.rdropWhile_singleton, trimCons]
    simp only [decide_eq_true_eq, and_true]
  | append_singleton x e ih =>
    rw [trim, trim, ← List.cons_append, List.rdropWhile_concat, List.rdropWhile_concat]
    by_cases he : e = d
    · rw [if_pos (decide_eq_true he), if_pos (decide_eq_true he)]
      exact ih
    · rw [if_neg (by rwa [decide_eq_true_eq]), if_neg (by rwa [decide_eq_true_eq]), trimCons,
        if_neg fun h => absurd h.2 (List.append_ne_nil_of_right_ne_nil x (List.cons_ne_nil e []))]
      rfl

theorem lex_trimCons {c c' : α} {r r' : List α} (hc : c = d ∨ cmp d c = .lt)
    (hc' : c' = d ∨ cmp d c' = .lt) :
    lex cmp (trimCons d c r) (trimCons d c' r') = (cmp c c').then (lex cmp r r') := by
  have hself : cmp d d = .eq := Std.LawfulEqCmp.compare_eq_iff_eq.mpr rfl
  rw [trimCons, trimCons]
  split_ifs with h h' h'
  · rw [h.1, h.2, h'.1, h'.2, hself, Ordering.eq_then]
  · -- what is left on the right is above the default
    rw [h.1, h.2, lex_nil_cons]
    rcases hc' with rfl | hlt
    · obtain ⟨a, s, rfl⟩ := List.exists_cons_of_ne_nil fun hr => h' ⟨rfl, hr⟩
      rw [hself, Ordering.eq_then, lex_nil_cons]
    · rw [hlt, Ordering.lt_then]
  · rw [h'.1, h'.2, lex_cons_nil]
    rcases hc with rfl | hlt
    · obtain ⟨a, s, rfl⟩ := List.exists_cons_of_ne_nil fun hr => h ⟨rfl, hr⟩
      rw [hself, Ordering.eq_then, lex_cons_nil]
    · rw [Std.OrientedCmp.gt_iff_lt.mpr hlt, Ordering.gt_then]
  · exact lex_cons

theorem lex_trim {x y : List α} (hx : ∀ c ∈ x, c = d ∨ cmp d c = .lt)
    (hy : ∀ c ∈ y, c = d ∨ cmp d c = .lt) :
    lex cmp (trim d x) (trim d y) = lexPad cmp d x y := by
  have hempty : trimCons d d [] = [] := if_pos ⟨rfl, rfl⟩
  induction x generalizing y with
  | nil =>
    induction y with
    | nil =>
      rw [trim_nil, lexPad]
      exact lex_nil
    | cons b y ihy =>
      have hrest := ihy fun c hc => hy c (List.mem_cons_of_mem b hc)
      rw [trim_nil] at hrest
      rw [trim_nil, trim_cons, lexPad, ← hrest, ← lex_trimCons (.inl rfl) (hy b List.mem_cons_self),
        hempty]
  | cons a x ih =>
    have hx' : ∀ c ∈ x, c = d ∨ cmp d c = .lt := fun c hc => hx c (List.mem_cons_of_mem a hc)
    cases y with
    | nil =>
      have hrest := ih hx' (y := []) fun c hc => absurd hc List.not_mem_nil
      rw [trim_nil] at hrest
      rw [trim_nil, trim_cons, lexPad, ← hrest, ← lex_trimCons (hx a List.mem_cons_self) (.inl rfl),
        hempty]
    | cons b y =>
      have hrest := ih hx' fun c hc => hy c (List.mem_cons_of_mem b hc)
      rw [trim_cons, trim_cons, lexPad, ← hrest,
        lex_trimCons (hx a List.mem_cons_self) (hy b List.mem_cons_self)]

end Trim

end SortKey
