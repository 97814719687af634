/-
Byte strings, paths and the text formats of the object cache.

A path is the list of its components, as `std::path` compares them: separators
are collapsed, a `.` is dropped unless it comes first, and the root is a
component of its own.
-/
import Mathlib.Data.List.Basic
import Mathlib.Data.List.Infix
import Mathlib.Tactic

namespace Aret

/-- A byte string; Rust's `String` is one that is valid UTF-8. -/
abbrev Bytes := List UInt8

def ascii (cs : List Char) : Bytes := cs.map fun c => UInt8.ofNat c.toNat

/-- `String::from_utf8`'s check: a run of RFC 3629 characters.  `need` counts the
continuation bytes still owed, the next of which lies in `lo ..= hi`. -/
def isUtf8 (need : ℕ) (lo hi : UInt8) : Bytes → Bool
  | [] => need == 0
  | b :: bs =>
    if need = 0 then
      if b ≤ 0x7F then isUtf8 0 0x80 0xBF bs
      else if 0xC2 ≤ b ∧ b ≤ 0xDF then isUtf8 1 0x80 0xBF bs
      else if b = 0xE0 then isUtf8 2 0xA0 0xBF bs
      else if b = 0xED then isUtf8 2 0x80 0x9F bs
      else if 0xE1 ≤ b ∧ b ≤ 0xEF then isUtf8 2 0x80 0xBF bs
      else if b = 0xF0 then isUtf8 3 0x90 0xBF bs
      else if 0xF1 ≤ b ∧ b ≤ 0xF3 then isUtf8 3 0x80 0xBF bs
      else if b = 0xF4 then isUtf8 3 0x80 0x8F bs
      else false
    else decide (lo ≤ b ∧ b ≤ hi) && isUtf8 (need - 1) 0x80 0xBF bs

/-! ### Splitting texts -/

/-- `str::replace`: every non-overlapping occurrence of `pat`, from the left.
`skip` counts the bytes of the last occurrence still to be passed over. -/
def replaceFrom (pat rep : Bytes) (skip : ℕ) : Bytes → Bytes
  | [] => []
  | b :: bs =>
    if skip ≠ 0 then replaceFrom pat rep (skip - 1) bs
    else if pat <+: b :: bs then rep ++ replaceFrom pat rep (pat.length - 1) bs
    else b :: replaceFrom pat rep 0 bs

def isAsciiSpace (b : UInt8) : Bool := decide (9 ≤ b ∧ b ≤ 13) || b == 32

/-- The length of the `White_Space` character a UTF-8 text starts with; `0` when
it starts with something else. -/
def spaceLength : Bytes → ℕ
  | [] => 0
  | b :: bs =>
    if isAsciiSpace b then 1
    else if b = 0xC2 ∧ (bs.head? = some 0x85 ∨ bs.head? = some 0xA0) then 2
    else if b = 0xE1 ∧ [0x9A, 0x80] <+: bs then 3
    else if b = 0xE2 ∧ bs.head? = some 0x80 ∧
        ((bs.tail.head?.any fun c => decide (0x80 ≤ c ∧ c ≤ 0x8A)) = true ∨
          bs.tail.head? = some 0xA8 ∨ bs.tail.head? = some 0xA9 ∨
          bs.tail.head? = some 0xAF) then 3
    else if b = 0xE2 ∧ [0x81, 0x9F] <+: bs then 3
    else if b = 0xE3 ∧ [0x80, 0x80] <+: bs then 3
    else 0

def flushToken (cur : Bytes) : List Bytes := if cur = [] then [] else [cur]

/-- `str::split_whitespace`, with the token `cur` under way and `skip` bytes of a
white space character still to be passed over. -/
def splitFrom (skip : ℕ) (cur : Bytes) : Bytes → List Bytes
  | [] => flushToken cur
  | b :: bs =>
    if skip ≠ 0 then splitFrom (skip - 1) cur bs
    else match spaceLength (b :: bs) with
      | 0 => splitFrom 0 (cur ++ [b]) bs
      | n + 1 => flushToken cur ++ splitFrom n [] bs

def splitWhitespace (text : Bytes) : List Bytes := splitFrom 0 [] text

private theorem not_mem_splitFrom {text : Bytes} : ∀ {skip : ℕ} {cur : Bytes},
    (∀ b ∈ cur, isAsciiSpace b = false) →
      ∀ t ∈ splitFrom skip cur text, ∀ b ∈ t, isAsciiSpace b = false := by
  have hflush : ∀ {cur : Bytes}, (∀ b ∈ cur, isAsciiSpace b = false) →
      ∀ t ∈ flushToken cur, ∀ b ∈ t, isAsciiSpace b = false := by
    intro cur hcur t ht
    unfold flushToken at ht
    split_ifs at ht
    · cases ht
    · rw [List.mem_singleton.mp ht]
      exact hcur
  induction text with
  | nil => exact fun hcur => hflush hcur
  | cons b bs ih =>
    intro skip cur hcur t ht
    rw [splitFrom] at ht
    split_ifs at ht with hskip
    · exact ih hcur t ht
    · split at ht
      · -- an ordinary byte joins the token under way
        rename_i hlen
        have hb : isAsciiSpace b = false := by
          by_contra hb
          simp [spaceLength, Bool.of_not_eq_false hb] at hlen
        refine ih ?_ t ht
        intro c hc
        rcases List.mem_append.mp hc with hc | hc
        · exact hcur c hc
        · rw [List.mem_singleton.mp hc]
          exact hb
      · rcases List.mem_append.mp ht with ht | ht
        · exact hflush hcur t ht
        · exact ih (by simp) t ht

theorem not_mem_splitWhitespace {text t : Bytes} (ht : t ∈ splitWhitespace text) :
    ∀ b ∈ t, isAsciiSpace b = false :=
  not_mem_splitFrom (by simp) t ht

def chopReturn (line : Bytes) : Bytes :=
  if line.getLast? = some 13 then line.dropLast else line

def lines (text : Bytes) : List Bytes :=
  let segs := text.splitOn 10
  (if segs.getLast? = some [] then segs.dropLast else segs).map chopReturn

def unlines (ls : List Bytes) : Bytes := ls.flatMap fun l => l ++ [10]

private theorem splitOn_unlines {ls : List Bytes} (h : ∀ l ∈ ls, (10 : UInt8) ∉ l) :
    (unlines ls).splitOn 10 = ls ++ [[]] := by
  have hrec : unlines ls = [(10 : UInt8)].intercalate (ls ++ [[]]) := by
    clear h
    induction ls with
    | nil => rfl
    | cons l ls ih =>
      have hcons : unlines (l :: ls) = l ++ [10] ++ unlines ls := by simp [unlines]
      rw [hcons, ih]
      cases ls <;> simp [List.intercalate, List.intersperse]
  rw [hrec, List.splitOn_intercalate]
  · intro l hl
    rcases List.mem_append.mp hl with hl | hl
    · exact h l hl
    · simp [List.mem_singleton.mp hl]
  · simp

theorem lines_unlines {ls : List Bytes} (hn : ∀ l ∈ ls, (10 : UInt8) ∉ l)
    (hr : ∀ l ∈ ls, (13 : UInt8) ∉ l) : lines (unlines ls) = ls := by
  have hchop : ls.map chopReturn = ls := by
    refine (List.map_congr_left fun l hl => ?_).trans (List.map_id ls)
    rw [chopReturn, if_neg fun hlast => hr l hl (List.mem_of_getLast? hlast), id]
  simp [lines, splitOn_unlines hn, hchop]

/-! ### Paths -/

abbrev Path := List Bytes

/-- The component that stands for `/`. -/
def rootDir : Bytes := [47]

/-- The component `.`. -/
def curDir : Bytes := [46]

def properNames (segs : List Bytes) : Path := segs.filter fun s => s ≠ [] ∧ s ≠ curDir

def components (p : Bytes) : Path :=
  if p.head? = some 47 then rootDir :: properNames (p.splitOn 47)
  else match p.splitOn 47 with
    | [] => []
    | s :: segs => if s = curDir then curDir :: properNames segs else properNames (s :: segs)

/-- `Path::display`, of a path held as its components. -/
def display (p : Path) : Bytes :=
  if p.head? = some rootDir then 47 :: [(47 : UInt8)].intercalate p.tail
  else [(47 : UInt8)].intercalate p

/-- `Path::join`: an absolute path replaces the base. -/
def joinPath (base rel : Path) : Path :=
  if rel.head? = some rootDir ∨ base = [] then rel
  else if rel.head? = some curDir then base ++ rel.tail
  else base ++ rel

def stripPrefix (base p : Path) : Option Path :=
  if base <+: p then some (p.drop base.length) else none

/-- `Path::file_name`: the last component, when it is an ordinary one. -/
def fileName (p : Path) : Option Bytes :=
  p.getLast?.filter fun c => c ≠ rootDir ∧ c ≠ curDir ∧ c ≠ ascii ['.', '.']

def moveUnder (base base' p : Path) : Path :=
  match stripPrefix base p with
  | some rel => joinPath base' rel
  | none => p

/-- A component that is neither the root nor `.`. -/
def IsName (s : Bytes) : Prop := s ≠ [] ∧ s ≠ curDir ∧ (47 : UInt8) ∉ s

/-- What `components` yields: names, after at most one root or `.`. -/
def IsPath (p : Path) : Prop :=
  (∀ s ∈ p.tail, IsName s) ∧ ∀ s ∈ p.head?, IsName s ∨ s = rootDir ∨ s = curDir

theorem IsName.ne_rootDir {s : Bytes} (h : IsName s) : s ≠ rootDir := by
  rintro rfl
  exact h.2.2 (by simp [rootDir])

private theorem not_mem_of_mem_splitOn {x : UInt8} {p s : Bytes} (h : s ∈ p.splitOn x) :
    x ∉ s := by
  induction p generalizing s with
  | nil =>
    rw [List.splitOn_nil, List.mem_singleton] at h
    simp [h]
  | cons b p ih =>
    rw [List.splitOn_eq_splitOnP] at h ih
    rw [List.splitOnP_cons_eq_if_modifyHead] at h
    split_ifs at h with hb
    · rcases List.mem_cons.mp h with rfl | h
      · simp
      · exact ih h
    · rcases hsegs : p.splitOnP (· == x) with _ | ⟨t, ts⟩
      · exact absurd hsegs (List.splitOnP_ne_nil _ _)
      · rw [hsegs] at h ih
        rcases List.mem_cons.mp h with rfl | h
        · have hbx : x ≠ b := fun hxb => hb (by simp [hxb])
          simp [hbx, ih List.mem_cons_self]
        · exact ih (List.mem_cons_of_mem t h)

private theorem isName_of_mem_properNames {segs : List Bytes}
    (h : ∀ s ∈ segs, (47 : UInt8) ∉ s) : ∀ s ∈ properNames segs, IsName s := by
  intro s hs
  have hs' := List.mem_filter.mp hs
  have hne := of_decide_eq_true hs'.2
  exact ⟨hne.1, hne.2, h s hs'.1⟩

private theorem properNames_eq_self {p : Path} (h : ∀ s ∈ p, IsName s) :
    properNames p = p :=
  List.filter_eq_self.mpr fun s hs => decide_eq_true ⟨(h s hs).1, (h s hs).2.1⟩

theorem isPath_of_isName {p : Path} (h : ∀ s ∈ p, IsName s) : IsPath p :=
  ⟨fun s hs => h s (List.mem_of_mem_tail hs),
    fun s hs => .inl (h s (List.mem_of_mem_head? hs))⟩

theorem isPath_cons {s : Bytes} {p : Path} :
    IsPath (s :: p) ↔ (∀ s ∈ p, IsName s) ∧ (IsName s ∨ s = rootDir ∨ s = curDir) := by
  simp [IsPath]

theorem isPath_components (p : Bytes) : IsPath (components p) := by
  have hsegs : ∀ s ∈ p.splitOn 47, (47 : UInt8) ∉ s := fun s hs => not_mem_of_mem_splitOn hs
  rw [components]
  split_ifs with hroot
  · exact isPath_cons.mpr ⟨isName_of_mem_properNames hsegs, .inr (.inl rfl)⟩
  · rcases hp : p.splitOn 47 with _ | ⟨s, segs⟩
    · exact isPath_of_isName (by simp)
    · rw [hp] at hsegs
      dsimp only
      split_ifs with hs
      · refine isPath_cons.mpr ⟨isName_of_mem_properNames fun t ht => ?_, .inr (.inr rfl)⟩
        exact hsegs t (List.mem_cons_of_mem s ht)
      · exact isPath_of_isName (isName_of_mem_properNames hsegs)

theorem IsPath.drop {p : Path} (h : IsPath p) (n : ℕ) : IsPath (p.drop n) := by
  cases p with
  | nil => simpa using h
  | cons s p =>
    cases n with
    | zero => exact h
    | succ n =>
      exact isPath_of_isName fun t ht => (isPath_cons.mp h).1 t (List.mem_of_mem_drop ht)

private theorem splitOn_intercalate_names {p : Path} (hp : ∀ s ∈ p, IsName s) (hne : p ≠ []) :
    ([(47 : UInt8)].intercalate p).splitOn 47 = p :=
  List.splitOn_intercalate 47 (fun s hs => (hp s hs).2.2) hne

private theorem head?_intercalate {s : Bytes} {p : Path} (hs : s ≠ []) :
    ([(47 : UInt8)].intercalate (s :: p)).head? = s.head? := by
  rcases s with _ | ⟨b, s⟩
  · exact absurd rfl hs
  · cases p <;> simp [List.intercalate, List.intersperse]

theorem components_display {p : Path} (h : IsPath p) : components (display p) = p := by
  cases p with
  | nil => decide
  | cons s p =>
    obtain ⟨hp, hs⟩ := isPath_cons.mp h
    by_cases hroot : s = rootDir
    · -- an absolute path prints with a leading separator
      subst hroot
      have hsplit : (47 :: [(47 : UInt8)].intercalate p).splitOn 47
          = [] :: ([(47 : UInt8)].intercalate p).splitOn 47 := by
        rw [List.splitOn_eq_splitOnP, List.splitOnP_cons_eq_if_modifyHead, if_pos (by simp),
          List.splitOn_eq_splitOnP]
      have hnames : properNames ([] :: ([(47 : UInt8)].intercalate p).splitOn 47) = p := by
        rcases hpn : p with _ | ⟨t, q⟩
        · decide
        · rw [splitOn_intercalate_names (hpn ▸ hp) (by simp), properNames,
            List.filter_cons_of_neg (by simp)]
          exact properNames_eq_self (hpn ▸ hp)
      rw [display, if_pos (by simp), List.tail_cons, components, if_pos (by simp), hsplit,
        hnames]
    · have hne : s ≠ [] := by
        rcases hs with hs | hs | hs
        · exact hs.1
        · exact absurd hs hroot
        · simp [hs, curDir]
      have hslash : ∀ t ∈ s :: p, (47 : UInt8) ∉ t := by
        intro t ht
        rcases List.mem_cons.mp ht with rfl | ht
        · rcases hs with hs | hs | hs
          · exact hs.2.2
          · exact absurd hs hroot
          · simp [hs, curDir]
        · exact (hp t ht).2.2
      have hhead : ([(47 : UInt8)].intercalate (s :: p)).head? ≠ some 47 := by
        rw [head?_intercalate hne]
        intro hh
        exact hslash s List.mem_cons_self (List.mem_of_mem_head? hh)
      have hs' : s = curDir ∨ IsName s := by tauto
      rw [display, if_neg (by simp [hroot]), components, if_neg hhead,
        List.splitOn_intercalate 47 hslash (by simp)]
      dsimp only
      split_ifs with hcur
      · rw [properNames_eq_self hp, hcur]
      · refine properNames_eq_self fun t ht => ?_
        rcases List.mem_cons.mp ht with rfl | ht
        · exact hs'.resolve_left hcur
        · exact hp t ht

theorem stripPrefix_eq_some {base p rel : Path} :
    stripPrefix base p = some rel ↔ base ++ rel = p := by
  rw [stripPrefix]
  constructor
  · intro h
    split_ifs at h with hpre
    rw [← Option.some.inj h]
    exact List.prefix_iff_eq_append.mp hpre
  · rintro rfl
    rw [if_pos (List.prefix_append base rel), List.drop_left]

theorem moveUnder_self {base p : Path} (h : IsPath p) : moveUnder base base p = p := by
  rcases hrel : stripPrefix base p with _ | rel
  · simp [moveUnder, hrel]
  · have hp := stripPrefix_eq_some.mp hrel
    simp only [moveUnder, hrel]
    rcases base with _ | ⟨b, base⟩
    · simpa [joinPath] using hp
    · -- what is left below a proper directory is neither absolute nor starts with `.`
      have hnames : ∀ s ∈ rel, IsName s := fun s hs =>
        (isPath_cons.mp (hp ▸ h)).1 s (List.mem_append_right base hs)
      have hroot : rel.head? ≠ some rootDir := fun hh =>
        (hnames _ (List.mem_of_mem_head? hh)).ne_rootDir rfl
      have hcur : rel.head? ≠ some curDir := fun hh =>
        (hnames _ (List.mem_of_mem_head? hh)).2.1 rfl
      rw [joinPath, if_neg (by simp [hroot]), if_neg hcur, hp]

private theorem mem_intercalate {p : Path} {b : UInt8} (hb : b ∈ [(47 : UInt8)].intercalate p) :
    b = 47 ∨ ∃ s ∈ p, b ∈ s := by
  induction p with
  | nil => simp at hb
  | cons s p ih =>
    have hcons : b ∈ s ∨ b = 47 ∨ b ∈ [(47 : UInt8)].intercalate p := by
      cases p with
      | nil => exact .inl (by simpa using hb)
      | cons t p => simpa using hb
    rcases hcons with hb | hb | hb
    · exact .inr ⟨s, List.mem_cons_self, hb⟩
    · exact .inl hb
    · rcases ih hb with hb | ⟨t, ht, hbt⟩
      · exact .inl hb
      · exact .inr ⟨t, List.mem_cons_of_mem s ht, hbt⟩

theorem mem_display {p : Path} {b : UInt8} (hb : b ∈ display p) :
    b = 47 ∨ ∃ s ∈ p, b ∈ s := by
  rw [display] at hb
  split_ifs at hb with hroot
  · rcases List.mem_cons.mp hb with rfl | hb
    · exact .inl rfl
    · rcases mem_intercalate hb with hb | ⟨s, hs, hbs⟩
      · exact .inl hb
      · exact .inr ⟨s, List.mem_of_mem_tail hs, hbs⟩
  · exact mem_intercalate hb

private theorem mem_of_mem_splitOn {p s : Bytes} (hs : s ∈ p.splitOn 47) {b : UInt8}
    (hb : b ∈ s) : b ∈ p := by
  have hp : List.intercalate [47] (p.splitOn 47) = p := List.intercalate_splitOn 47
  generalize p.splitOn 47 = segs at hs hp
  rw [← hp]
  clear hp
  induction segs with
  | nil => cases hs
  | cons t segs ih =>
    cases segs with
    | nil => simpa [List.mem_singleton.mp hs] using hb
    | cons u segs =>
      rcases List.mem_cons.mp hs with rfl | hs
      · simp [hb]
      · simp [ih hs]

theorem mem_of_mem_components {p s : Bytes} (hs : s ∈ components p) {b : UInt8} (hb : b ∈ s) :
    b ∈ p ∨ b = 47 ∨ b = 46 := by
  have hnames : ∀ {segs}, (∀ t ∈ segs, ∀ c ∈ t, c ∈ p) → s ∈ properNames segs → b ∈ p :=
    fun hsegs hs => hsegs s (List.mem_of_mem_filter hs) b hb
  have hsegs : ∀ t ∈ p.splitOn 47, ∀ c ∈ t, c ∈ p := fun t ht c hc => mem_of_mem_splitOn ht hc
  rw [components] at hs
  split_ifs at hs with hroot
  · rcases List.mem_cons.mp hs with rfl | hs
    · exact .inr (.inl (List.mem_singleton.mp hb))
    · exact .inl (hnames hsegs hs)
  · rcases hp : p.splitOn 47 with _ | ⟨t, segs⟩
    · rw [hp] at hs
      cases hs
    · rw [hp] at hs hsegs
      dsimp only at hs
      split_ifs at hs with hcur
      · rcases List.mem_cons.mp hs with rfl | hs
        · exact .inr (.inr (List.mem_singleton.mp hb))
        · exact .inl (hnames (fun u hu => hsegs u (List.mem_cons_of_mem t hu)) hs)
      · exact .inl (hnames hsegs hs)

end Aret
