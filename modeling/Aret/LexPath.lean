/-
Paths with separators, resolved by their text alone.
-/
import Mathlib.Data.List.Infix
import Mathlib.Tactic

namespace LexPath

/-- A component of a path; empty ones and `.` do not count. -/
inductive Segment
  | up
  | name (text : List UInt8)
  deriving DecidableEq

abbrev slash : UInt8 := 47

def segment : List UInt8 → Option Segment
  | [] => none
  | [46] => none
  | [46, 46] => some .up
  | text => some (.name text)

def segments (path : List UInt8) : List Segment := (path.splitOn slash).filterMap segment

def isAbsolute (path : List UInt8) : Bool := path.head? = some slash

/-- The next component: `..` takes the last name away; above the root it is the root, and where
nothing is left of a relative path it stays. -/
def push (absolute : Bool) (stack : List Segment) : Segment → List Segment
  | .name text => stack ++ [.name text]
  | .up =>
    match stack.getLast? with
    | some (.name _) => stack.dropLast
    | some .up => stack ++ [.up]
    | none => if absolute then [] else [.up]

def resolve (path : List UInt8) : List Segment :=
  (segments path).foldl (push (isAbsolute path)) []

/-- The path is the directory and names below it. -/
def Under (dir path : List UInt8) : Prop :=
  isAbsolute path = isAbsolute dir ∧
    ∃ names : List (List UInt8), resolve path = resolve dir ++ names.map .name

/-- Below a directory `d` names deep, no `..` climbs above the directory. -/
def Stays : ℕ → List Segment → Bool
  | _, [] => true
  | d, .name _ :: segs => Stays (d + 1) segs
  | 0, .up :: _ => false
  | d + 1, .up :: segs => Stays d segs

variable {dir path rest : List UInt8} {absolute : Bool}

theorem Under.trans {top : List UInt8} (h : Under top dir) (h' : Under dir path) :
    Under top path := by
  obtain ⟨habs, names, hnames⟩ := h
  obtain ⟨habs', names', hnames'⟩ := h'
  refine ⟨habs'.trans habs, names ++ names', ?_⟩
  rw [hnames', hnames, List.map_append, List.append_assoc]

theorem under_refl (path : List UInt8) : Under path path := ⟨rfl, [], (List.append_nil _).symm⟩

theorem foldl_push {base : List Segment} : ∀ {segs : List Segment} {names : List (List UInt8)},
    Stays names.length segs = true → ∃ names' : List (List UInt8),
      segs.foldl (push absolute) (base ++ names.map .name) = base ++ names'.map .name := by
  intro segs
  induction segs with
  | nil => exact fun {names} _ => ⟨names, rfl⟩
  | cons seg segs ih =>
    intro names h
    rw [List.foldl_cons]
    cases seg with
    | name text =>
      have hpush : push absolute (base ++ names.map .name) (.name text) =
          base ++ (names ++ [text]).map .name := by
        rw [push, List.append_assoc, List.map_append, List.map_singleton]
      rw [hpush]
      refine ih ?_
      rw [List.length_append, List.length_singleton]
      exact h
    | up =>
      rcases List.eq_nil_or_concat names with rfl | ⟨names, text, rfl⟩
      · exact absurd h (by simp [Stays])
      · rw [List.concat_eq_append] at h ⊢
        have hpush : push absolute (base ++ (names ++ [text]).map .name) .up =
            base ++ names.map .name := by
          rw [List.map_append, List.map_singleton, ← List.append_assoc, push,
            List.getLast?_concat, List.dropLast_concat]
        rw [hpush]
        refine ih ?_
        rw [List.length_append, List.length_singleton] at h
        exact h

theorem under_of_segments (habs : isAbsolute path = isAbsolute dir) {segs : List Segment}
    (hsegs : segments path = segments dir ++ segs) (h : Stays 0 segs = true) : Under dir path := by
  obtain ⟨names, hnames⟩ := @foldl_push (isAbsolute dir) (resolve dir) segs [] h
  rw [List.map_nil, List.append_nil] at hnames
  have hpath : resolve path = resolve dir ++ names.map .name := by
    rw [resolve, hsegs, List.foldl_append, habs]
    exact hnames
  exact ⟨habs, names, hpath⟩

/-! ### Climbing -/

theorem getElem?_push {stack : List Segment} {seg : Segment} {t : List UInt8} {i : ℕ}
    (hseg : seg ≠ .name t) (h : stack[i]? ≠ some (.name t)) :
    (push absolute stack seg)[i]? ≠ some (.name t) := by
  have happend : ∀ x : Segment, x ≠ .name t → (stack ++ [x])[i]? ≠ some (.name t) := by
    intro x hx
    rcases lt_trichotomy i stack.length with hi | rfl | hi
    · rwa [List.getElem?_append_left hi]
    · rw [List.getElem?_concat_length]
      exact fun heq => hx (Option.some.inj heq)
    · rw [List.getElem?_eq_none (by rw [List.length_append, List.length_singleton]; omega)]
      exact nofun
  cases seg with
  | name text => exact happend _ hseg
  | up =>
    rw [push]
    split
    · rw [List.getElem?_dropLast]
      split
      · exact h
      · exact nofun
    · exact happend _ nofun
    · split
      · exact nofun
      · rcases i with _ | i <;> simp

theorem getElem?_foldl_push {segs stack : List Segment} {t : List UInt8} {i : ℕ}
    (hsegs : .name t ∉ segs) (h : stack[i]? ≠ some (.name t)) :
    (segs.foldl (push absolute) stack)[i]? ≠ some (.name t) := by
  induction segs generalizing stack with
  | nil => exact h
  | cons seg segs ih =>
    rw [List.mem_cons, not_or] at hsegs
    exact ih hsegs.2 (getElem?_push (Ne.symm hsegs.1) h)

/-- A climb takes the last name of the directory away, and no other name puts it back. -/
theorem stays_of_foldl_push {base : List Segment} {t : List UInt8} :
    ∀ {segs : List Segment} {names : List (List UInt8)}, .name t ∉ segs →
      (segs.foldl (push absolute) (base ++ .name t :: names.map .name))[base.length]? =
        some (.name t) → Stays names.length segs = true := by
  intro segs
  induction segs with
  | nil => exact fun _ _ => by rw [Stays]
  | cons seg segs ih =>
    intro names hsegs h
    rw [List.mem_cons, not_or] at hsegs
    rw [List.foldl_cons] at h
    cases seg with
    | name text =>
      have hpush : push absolute (base ++ .name t :: names.map .name) (.name text) =
          base ++ .name t :: (names ++ [text]).map .name := by
        rw [push, List.append_assoc, List.map_append, List.map_singleton, List.cons_append]
      rw [hpush] at h
      have hstays := ih hsegs.2 h
      rwa [List.length_append, List.length_singleton] at hstays
    | up =>
      rcases List.eq_nil_or_concat names with rfl | ⟨names, text, rfl⟩
      · have hpush : push absolute (base ++ [.name t]) .up = base := by
          rw [push, List.getLast?_concat, List.dropLast_concat]
        rw [List.map_nil, hpush] at h
        refine absurd h (getElem?_foldl_push hsegs.2 ?_)
        rw [List.getElem?_eq_none le_rfl]
        exact nofun
      · rw [List.concat_eq_append] at h ⊢
        have hpush : push absolute (base ++ .name t :: (names ++ [text]).map .name) .up =
            base ++ .name t :: names.map .name := by
          rw [List.map_append, List.map_singleton, ← List.cons_append, ← List.append_assoc, push,
            List.getLast?_concat, List.dropLast_concat]
        rw [hpush] at h
        have hstays := ih hsegs.2 h
        rwa [List.length_append, List.length_singleton, Stays]

theorem segments_append (dir rest : List UInt8) :
    segments (dir ++ slash :: rest) = segments dir ++ segments rest := by
  rw [segments, List.splitOn_append_cons_self, List.filterMap_append]
  rfl

theorem isAbsolute_append (h : dir ≠ []) (rest : List UInt8) :
    isAbsolute (dir ++ rest) = isAbsolute dir := by
  rw [isAbsolute, isAbsolute, List.head?_append_of_ne_nil _ h]

theorem segments_append_rest (dir : List UInt8) (hrest : rest.head? = some slash ∨ rest = []) :
    segments (dir ++ rest) = segments dir ++ segments rest := by
  rcases hrest with hrest | rfl
  · obtain ⟨rest, rfl⟩ : ∃ tail, rest = slash :: tail :=
      ⟨rest.tail, (List.cons_head?_tail hrest).symm⟩
    have hsegs := segments_append [] rest
    rw [List.nil_append, show segments [] = [] from rfl, List.nil_append] at hsegs
    rw [hsegs, segments_append]
  · rw [List.append_nil, show segments [] = [] from rfl, List.append_nil]

theorem under_append (hdir : dir ≠ []) (hrest : rest.head? = some slash ∨ rest = [])
    (h : Stays 0 (segments rest) = true) : Under dir (dir ++ rest) :=
  under_of_segments (isAbsolute_append hdir _) (segments_append_rest dir hrest) h

theorem stays_of_under_append {t : List UInt8} (hdir : dir ≠ [])
    (hrest : rest.head? = some slash ∨ rest = [])
    (hlast : (resolve dir).getLast? = some (.name t)) (hname : .name t ∉ segments rest)
    (h : Under dir (dir ++ rest)) : Stays 0 (segments rest) = true := by
  obtain ⟨base, hbase⟩ := List.getLast?_eq_some_iff.mp hlast
  obtain ⟨-, names, hnames⟩ := h
  refine @stays_of_foldl_push (isAbsolute dir) base t _ [] hname ?_
  rw [resolve, segments_append_rest dir hrest, List.foldl_append, isAbsolute_append hdir] at hnames
  change (segments rest).foldl (push (isAbsolute dir)) (resolve dir) = _ at hnames
  rw [hbase] at hnames
  rw [List.map_nil, hnames, List.append_assoc, List.getElem?_append_right le_rfl, Nat.sub_self]
  rfl

end LexPath
