/-
The scope of the commits of the memory store.

`git_memory.py` reads the listing of `git status --porcelain=v1`, and commits when every path in it
lies in the memory directory.

* `scopedExactly_iff` — it is right for exactly the listings in which no path is quoted or renamed
  and the first line does not begin with a blank.
-/
import Aret.Lines
import Aret.MemoryText
import Mathlib.Data.List.DropRight

namespace Aret.Memory.Git

abbrev Text := List Char

/-! ### The listing of git -/

/-- The codes of the two status columns. -/
inductive Code
  | unmodified
  | modified
  | typeChanged
  | added
  | deleted
  | renamed
  | copied
  | unmerged
  | untracked
  deriving DecidableEq

def Code.char : Code → Char
  | .unmodified => ' '
  | .modified => 'M'
  | .typeChanged => 'T'
  | .added => 'A'
  | .deleted => 'D'
  | .renamed => 'R'
  | .copied => 'C'
  | .unmerged => 'U'
  | .untracked => '?'

/-- A change of the working tree; `orig` is where a path was renamed or copied from. -/
structure Change where
  index : Code
  worktree : Code
  path : Text
  orig : Option Text
  changed : index = .unmodified → worktree ≠ .unmodified
  named : path ≠ [] ∧ ∀ o ∈ orig, o ≠ []

/-- A change without a renaming. -/
def Change.plain (x y : Code) (p : Text) (h : x = .unmodified → y ≠ .unmodified := by decide)
    (hp : p ≠ [] := by decide) : Change := ⟨x, y, p, none, h, hp, nofun⟩

/-- A character that makes git quote the path. -/
def special (c : Char) : Bool := c.toNat ≤ 32 || c.toNat = 34 || c.toNat = 92 || 127 ≤ c.toNat

def octal (b : UInt8) : Text :=
  ['\\', Nat.digitChar (b.toNat / 64), Nat.digitChar (b.toNat / 8 % 8),
    Nat.digitChar (b.toNat % 8)]

/-- A character of a quoted path. -/
def escape (c : Char) : Text :=
  match c.toNat with
  | 7 => ['\\', 'a']
  | 8 => ['\\', 'b']
  | 9 => ['\\', 't']
  | 10 => ['\\', 'n']
  | 11 => ['\\', 'v']
  | 12 => ['\\', 'f']
  | 13 => ['\\', 'r']
  | 32 => [' ']
  | 34 => ['\\', '"']
  | 92 => ['\\', '\\']
  | _ => if special c then (String.utf8EncodeChar c).flatMap octal else [c]

def quote (p : Text) : Text := if p.any special then '"' :: p.flatMap escape ++ ['"'] else p

namespace Change
variable (w : Change)

/-- How the path, or both of them, are written. -/
def name : Text :=
  match w.orig with
  | none => quote w.path
  | some o => quote o ++ (" -> ".toList ++ quote w.path)

def line : Text := w.index.char :: w.worktree.char :: ' ' :: w.name

/-- Every path that the change involves. -/
def paths : List Text := w.orig.toList ++ [w.path]

end Change

/-- The output of `git status --porcelain=v1`. -/
def porcelain (ws : List Change) : Text := ws.flatMap fun w => w.line ++ ['\n']

/-! ### What the script does -/

def strip (t : Text) : Text := (t.dropWhile isSpace).rdropWhile isSpace

/-- Where `str.splitlines` ends a line; there is no carriage return in output read as text. -/
def isBreak (c : Char) : Bool :=
  let n := c.toNat
  10 ≤ n && n ≤ 12 || 28 ≤ n && n ≤ 30 || n == 0x85 || n == 0x2028 || n == 0x2029

def splitlines (t : Text) : List Text :=
  Lines.bodies '\n' (t.map fun c => if isBreak c then '\n' else c)

structure Item where
  index : Char
  worktree : Char
  path : Text
  deriving DecidableEq

/-- A line of the listing; shorter ones are passed over. -/
def item? : Text → Option Item
  | i :: t :: _ :: c :: rest => some ⟨i, t, c :: rest⟩
  | _ => none

/-- `changes`, on the output of git, which `invoke` strips. -/
def changes (out : Text) : List Item := (splitlines (strip out)).filterMap item?

/-- A path in the memory directory `rel`. -/
def inScope (rel p : Text) : Bool := p = rel || (rel ++ ['/']).isPrefixOf p

/-- `validate_scope`; an error has its text. -/
def validateScope (items : List Item) (rel : Text) : Except Text Unit :=
  let outside := (items.map Item.path).filter fun p => !inScope rel p
  if outside = [] then .ok ()
  else .error ("Des changements hors du Memory Store sont présents : ".toList ++
    ((outside.take 8).intersperse ", ".toList).flatten)

inductive Commit
  | nothing
  | committed (message : Text)
  deriving DecidableEq

/-- `commit`: `located` is the memory directory, if there is one, `wal` the checkpoint of the
database and `out` the output of git. -/
def commit (located : Except Text Text) (wal : Except Text Unit) (out message : Text)
    (yes : Bool) : Except Text Commit := do
  if !yes then throw "Commit refusé sans --yes explicite".toList
  if strip message = [] then throw "Un message de commit explicite est requis".toList
  let rel ← located
  wal
  let items := changes out
  validateScope items rel
  if items = [] then return .nothing
  return .committed (strip message)

structure Policy where
  autoCommit : Bool
  autoPush : Bool
  remote : Text
  branch : Text

inductive Sync
  | disabled
  | refused (reason : Text)
  | nothing
  | committed (message : Text) (pushed : Bool)
  deriving DecidableEq

/-- `automatic_sync`; `now` is the time in the message. -/
def automaticSync (located : Except Text Text) (policy : Except Text Policy)
    (wal : Except Text Unit) (out operation now : Text) : Except Text Sync := do
  let rel ← located
  let policy ← policy
  if !policy.autoCommit then return .disabled
  wal
  let items := changes out
  match validateScope items rel with
  | .error reason => return .refused reason
  | .ok () =>
    if (items.filter fun i => inScope rel i.path) = [] then return .nothing
    return .committed ("ARET-MMU memory: ".toList ++ operation ++ " — ".toList ++ now)
      (policy.autoPush && strip policy.branch ≠ [])

/-! ### The claim and its condition -/

/-- Only the memory directory is involved. -/
def Inside (rel : Text) (ws : List Change) : Prop := ∀ w ∈ ws, ∀ p ∈ w.paths, inScope rel p = true

structure ScopedExactly (rel : Text) (ws : List Change) : Prop where
  paths : (changes (porcelain ws)).map Item.path = ws.map Change.path
  accepts : validateScope (changes (porcelain ws)) rel = .ok () ↔ Inside rel ws
  commits : ∀ message, strip message ≠ [] →
    (Inside rel ws → commit (.ok rel) (.ok ()) (porcelain ws) message true =
      .ok (if ws = [] then .nothing else .committed (strip message))) ∧
    (¬ Inside rel ws → ∃ e, commit (.ok rel) (.ok ()) (porcelain ws) message true = .error e)
  syncs : ∀ policy : Policy, policy.autoCommit = true → ∀ operation now,
    (Inside rel ws → ws ≠ [] → ∃ message pushed,
      automaticSync (.ok rel) (.ok policy) (.ok ()) (porcelain ws) operation now =
        .ok (.committed message pushed)) ∧
    (¬ Inside rel ws → ∃ e,
      automaticSync (.ok rel) (.ok policy) (.ok ()) (porcelain ws) operation now =
        .ok (.refused e))

/-- No path is renamed or has to be quoted, and the listing does not begin with a blank. -/
structure Readable (ws : List Change) : Prop where
  first : ∀ w ∈ ws.head?, w.index ≠ .unmodified
  plain : ∀ w ∈ ws, w.orig = none ∧ w.path.any special = false

/-! ### What is written for a path -/

/-- A character that is written as it is: neither a control character nor beyond ASCII. -/
def Printable (c : Char) : Prop := 32 ≤ c.toNat ∧ c.toNat < 127

instance (c : Char) : Decidable (Printable c) := inferInstanceAs (Decidable (_ ∧ _))

theorem not_break_of_printable {c : Char} (h : Printable c) : isBreak c = false := by
  obtain ⟨hlo, hhi⟩ := h
  simp only [isBreak, Bool.or_eq_false_iff, Bool.and_eq_false_iff, decide_eq_false_iff_not,
    beq_eq_false_iff_ne]
  omega

theorem ne_newline_of_printable {c : Char} (h : Printable c) : c ≠ '\n' := by
  rintro rfl
  exact absurd h.1 (by decide)

theorem plain_of_not_special {c : Char} (h : special c = false) :
    Printable c ∧ isSpace c = false := by
  simp only [special, Bool.or_eq_false_iff, decide_eq_false_iff_not] at h
  refine ⟨⟨by omega, by omega⟩, ?_⟩
  simp only [isSpace, Bool.or_eq_false_iff, Bool.and_eq_false_iff, decide_eq_false_iff_not,
    beq_eq_false_iff_ne]
  omega

theorem printable_octal {b : UInt8} {d : Char} (hd : d ∈ octal b) : Printable d := by
  have hdigit : ∀ n < 8, Printable (Nat.digitChar n) := by decide
  have hb := b.toNat_lt
  simp only [octal, List.mem_cons, List.not_mem_nil, or_false] at hd
  rcases hd with rfl | rfl | rfl | rfl
  · decide
  · exact hdigit _ (by omega)
  · exact hdigit _ (by omega)
  · exact hdigit _ (by omega)

theorem printable_of_all {l : Text} (h : l.all fun d => decide (Printable d)) {d : Char}
    (hd : d ∈ l) : Printable d :=
  of_decide_eq_true (List.all_eq_true.mp h d hd)

theorem printable_escape {c d : Char} (hd : d ∈ escape c) : Printable d := by
  unfold escape at hd
  split at hd
  case h_11 =>
    split at hd
    · obtain ⟨b, -, hb⟩ := List.mem_flatMap.mp hd
      exact printable_octal hb
    · rename_i hs
      rw [List.mem_singleton.mp hd]
      exact (plain_of_not_special (by simpa using hs)).1
  all_goals exact printable_of_all (by decide) hd

theorem length_escape (c : Char) : 1 ≤ (escape c).length := by
  unfold escape
  split
  case h_11 =>
    split
    · have hlen : 0 < (String.utf8EncodeChar c).length := by
        rw [String.length_utf8EncodeChar]
        exact c.utf8Size_pos
      obtain ⟨b, hb⟩ := List.exists_mem_of_length_pos hlen
      exact List.length_pos_of_mem (List.mem_flatMap.mpr ⟨b, hb, List.mem_cons_self⟩)
    · exact Nat.le_refl 1
  all_goals decide

section
variable {p : Text}

theorem quote_plain (h : p.any special = false) : quote p = p :=
  if_neg (by rw [h]; exact Bool.false_ne_true)

theorem quote_special (h : p.any special = true) :
    quote p = '"' :: p.flatMap escape ++ ['"'] :=
  if_pos h

theorem length_quote (h : p.any special = true) : p.length + 2 ≤ (quote p).length := by
  have hlen : ∀ q : Text, q.length ≤ (q.flatMap escape).length := by
    intro q
    induction q with
    | nil => exact Nat.le_refl 0
    | cons c q ih =>
      have := length_escape c
      rw [List.flatMap_cons, List.length_append, List.length_cons]
      omega
  have := hlen p
  rw [quote_special h]
  simp only [List.length_append, List.length_cons, List.length_nil]
  omega

theorem length_le_quote (p : Text) : p.length ≤ (quote p).length := by
  cases h : p.any special with
  | false => rw [quote_plain h]
  | true => exact (Nat.le_add_right _ 2).trans (length_quote h)

theorem printable_quote {d : Char} (hd : d ∈ quote p) : Printable d := by
  cases h : p.any special with
  | false =>
    rw [quote_plain h] at hd
    exact (plain_of_not_special (by simpa using List.any_eq_false.mp h d hd)).1
  | true =>
    rw [quote_special h] at hd
    simp only [List.mem_append, List.mem_cons, List.not_mem_nil, or_false,
      List.mem_flatMap] at hd
    rcases hd with (rfl | ⟨c, -, hc⟩) | rfl
    · decide
    · exact printable_escape hc
    · decide

theorem quote_last (hp : p ≠ []) : ∃ t c, quote p = t ++ [c] ∧ isSpace c = false := by
  cases h : p.any special with
  | false =>
    refine ⟨p.dropLast, p.getLast hp, ?_, ?_⟩
    · rw [quote_plain h, List.dropLast_concat_getLast]
    · have := List.any_eq_false.mp h _ (List.getLast_mem hp)
      exact (plain_of_not_special (by simpa using this)).2
  | true => exact ⟨'"' :: p.flatMap escape, '"', quote_special h, by decide⟩

end

/-! ### What is written for a change -/

section
variable (w : Change)

theorem name_renamed {o : Text} (h : w.orig = some o) :
    w.name = quote o ++ (" -> ".toList ++ quote w.path) := by
  rw [Change.name, h]

theorem name_plain (h : w.orig = none) : w.name = quote w.path := by
  rw [Change.name, h]

theorem length_renamed {o : Text} (h : w.orig = some o) : w.path.length + 5 ≤ w.name.length := by
  have := length_le_quote w.path
  have := length_le_quote o
  have : 1 ≤ o.length := List.length_pos_iff.mpr (w.named.2 o h)
  have harrow : " -> ".toList.length = 4 := rfl
  rw [name_renamed w h, List.length_append, List.length_append, harrow]
  omega

/-- A path is written as it is, or with two characters more. -/
theorem name_cases :
    (w.orig = none ∧ w.path.any special = false) ∧ w.name = w.path ∨
    ¬ (w.orig = none ∧ w.path.any special = false) ∧ w.path.length + 2 ≤ w.name.length := by
  cases ho : w.orig with
  | some o =>
    have := length_renamed w ho
    exact .inr ⟨nofun, by omega⟩
  | none =>
    cases h : w.path.any special with
    | false => exact .inl ⟨⟨rfl, rfl⟩, (name_plain w ho).trans (quote_plain h)⟩
    | true =>
      refine .inr ⟨nofun, ?_⟩
      rw [name_plain w ho]
      exact length_quote h

theorem name_eq_iff : w.name = w.path ↔ w.orig = none ∧ w.path.any special = false := by
  rcases name_cases w with ⟨h, heq⟩ | ⟨h, hlen⟩
  · exact iff_of_true heq h
  · refine iff_of_false (fun heq => ?_) h
    rw [heq] at hlen
    omega

/-- A path that lost its first character is another one. -/
theorem name_tail_ne : w.name.drop 1 ≠ w.path := by
  have hpos := List.length_pos_iff.mpr w.named.1
  intro h
  have hlen := congrArg List.length h
  rw [List.length_drop] at hlen
  rcases name_cases w with ⟨-, heq⟩ | ⟨-, hge⟩
  · rw [heq] at hlen
    omega
  · omega

theorem name_ne : w.name ≠ [] := by
  have hpos := List.length_pos_iff.mpr w.named.1
  rcases name_cases w with ⟨-, heq⟩ | ⟨-, hge⟩
  · rw [heq]
    exact w.named.1
  · exact List.length_pos_iff.mp (by omega)

theorem printable_name {d : Char} (hd : d ∈ w.name) : Printable d := by
  cases ho : w.orig with
  | none =>
    rw [name_plain w ho] at hd
    exact printable_quote hd
  | some o =>
    rw [name_renamed w ho, List.mem_append, List.mem_append] at hd
    rcases hd with hd | hd | hd
    · exact printable_quote hd
    · exact printable_of_all (by decide) hd
    · exact printable_quote hd

theorem name_last : ∃ t c, w.name = t ++ [c] ∧ isSpace c = false := by
  obtain ⟨t, c, ht, hc⟩ := quote_last w.named.1
  cases ho : w.orig with
  | none => exact ⟨t, c, (name_plain w ho).trans ht, hc⟩
  | some o =>
    refine ⟨quote o ++ (" -> ".toList ++ t), c, ?_, hc⟩
    rw [name_renamed w ho, ht, List.append_assoc, List.append_assoc]

theorem printable_code (x : Code) : Printable x.char := by
  cases x <;> decide

theorem isSpace_code (x : Code) : isSpace x.char = true ↔ x = .unmodified := by
  cases x <;> decide

theorem printable_line {d : Char} (hd : d ∈ w.line) : Printable d := by
  simp only [Change.line, List.mem_cons] at hd
  rcases hd with rfl | rfl | rfl | hd
  · exact printable_code _
  · exact printable_code _
  · decide
  · exact printable_name w hd

end

/-! ### What the script reads -/

/-- A line as the listing ends up with it: the first one loses a blank at its beginning. -/
def firstLine (w : Change) : Text := if w.index = .unmodified then w.line.drop 1 else w.line

/-- The item of a line that is read whole. -/
def Change.item (w : Change) : Item := ⟨w.index.char, w.worktree.char, w.name⟩

theorem item_line (w : Change) : item? w.line = some w.item := by
  rw [Change.line, Change.item]
  cases hn : w.name with
  | nil => exact absurd hn (name_ne w)
  | cons c cs => rfl

theorem bodies_trimmed {ls : List Text} (hne : ls ≠ []) (hbreak : ∀ l ∈ ls, '\n' ∉ l)
    (hlast : ∀ l ∈ ls, ∃ t c, l = t ++ [c] ∧ isSpace c = false) :
    Lines.bodies '\n' ((ls.flatMap (· ++ ['\n'])).rdropWhile isSpace) = ls := by
  obtain ⟨init, l, rfl⟩ : ∃ init l, ls = init ++ [l] :=
    ⟨ls.dropLast, ls.getLast hne, (List.dropLast_concat_getLast hne).symm⟩
  obtain ⟨t, c, rfl, hc⟩ := hlast l (by simp)
  have hall : (init ++ [t ++ [c]]).flatMap (· ++ ['\n']) =
      (init.flatMap (· ++ ['\n']) ++ (t ++ [c])) ++ ['\n'] := by
    rw [List.flatMap_append, List.flatMap_singleton, List.append_assoc, List.append_assoc,
      List.append_assoc]
  have hlines : Lines.IsLines '\n' ((init ++ [t ++ [c]]).map (· ++ ['\n'])) := by
    rw [← List.append_nil (List.map _ _)]
    refine Lines.IsLines.nil.append fun l hl => ?_
    obtain ⟨b, hb, rfl⟩ := List.mem_map.mp hl
    exact ⟨b, hbreak b hb, rfl⟩
  have hc' : c ≠ '\n' := by
    rintro rfl
    exact absurd hc (by decide)
  rw [hall, List.rdropWhile_concat_pos _ _ _ (by decide), ← List.append_assoc,
    List.rdropWhile_concat_neg _ _ _ (by rw [hc]; exact Bool.false_ne_true),
    ← Lines.bodies_concat (by simp) (by simpa using hc'), List.append_assoc _ t, ← hall,
    List.flatMap_def, Lines.bodies_flatten hlines, List.map_map]
  refine (List.map_congr_left fun b hb => ?_).trans (List.map_id _)
  exact Lines.body_ended (hbreak b hb)

theorem line_last (w : Change) (k : ℕ) (hk : k ≤ 3) :
    ∃ t c, w.line.drop k = t ++ [c] ∧ isSpace c = false := by
  obtain ⟨t, c, ht, hc⟩ := name_last w
  have hline : w.line = [w.index.char, w.worktree.char, ' '] ++ w.name := rfl
  refine ⟨[w.index.char, w.worktree.char, ' '].drop k ++ t, c, ?_, hc⟩
  rw [hline, List.drop_append_of_le_length (by simpa using hk), ht, List.append_assoc]

theorem splitlines_strip (w : Change) (ws : List Change) :
    splitlines (strip (porcelain (w :: ws))) = firstLine w :: ws.map Change.line := by
  have hnl : ∀ v : Change, '\n' ∉ v.line := fun v hv =>
    ne_newline_of_printable (printable_line v hv) rfl
  -- only a blank of the first column is removed at the beginning
  have hdrop : (porcelain (w :: ws)).dropWhile isSpace =
      (firstLine w :: ws.map Change.line).flatMap (· ++ ['\n']) := by
    have hrest : porcelain ws = (ws.map Change.line).flatMap (· ++ ['\n']) := by
      rw [porcelain, List.flatMap_map]
    rw [List.flatMap_cons, ← hrest, firstLine]
    show List.dropWhile isSpace (w.index.char :: _) = _
    split
    · rename_i hx
      have hy : ¬ isSpace w.worktree.char = true := by
        rw [isSpace_code]
        exact w.changed hx
      rw [List.dropWhile_cons_of_pos ((isSpace_code _).mpr hx)]
      exact List.dropWhile_cons_of_neg hy
    · rename_i hx
      exact List.dropWhile_cons_of_neg (by rwa [isSpace_code])
  have hmem : ∀ l ∈ firstLine w :: ws.map Change.line,
      ∃ v : Change, ∃ k ≤ 3, l = v.line.drop k := by
    intro l hl
    rcases List.mem_cons.mp hl with rfl | hl
    · unfold firstLine
      split
      · exact ⟨w, 1, by omega, rfl⟩
      · exact ⟨w, 0, by omega, rfl⟩
    · obtain ⟨v, -, rfl⟩ := List.mem_map.mp hl
      exact ⟨v, 0, by omega, rfl⟩
  have hsame : ∀ t : Text, (∀ c ∈ t, c = '\n' ∨ Printable c) →
      t.map (fun c => if isBreak c then '\n' else c) = t := by
    intro t ht
    refine (List.map_congr_left fun c hc => ?_).trans (List.map_id _)
    rcases ht c hc with rfl | hp
    · rfl
    · rw [not_break_of_printable hp]
      rfl
  rw [splitlines, strip, hdrop, hsame]
  · refine bodies_trimmed (List.cons_ne_nil _ _) (fun l hl => ?_) fun l hl => ?_
    · obtain ⟨v, k, -, rfl⟩ := hmem l hl
      exact fun h => hnl v (List.mem_of_mem_drop h)
    · obtain ⟨v, k, hk, rfl⟩ := hmem l hl
      exact line_last v k hk
  · intro c hc
    obtain ⟨l, hl, hcl⟩ := List.mem_flatMap.mp ((List.rdropWhile_prefix _ _).subset hc)
    obtain ⟨v, k, -, rfl⟩ := hmem l hl
    rcases List.mem_append.mp hcl with h | h
    · exact .inr (printable_line v (List.mem_of_mem_drop h))
    · exact .inl (List.mem_singleton.mp h)

theorem changes_porcelain (w : Change) (ws : List Change) :
    changes (porcelain (w :: ws)) = (item? (firstLine w)).toList ++ ws.map Change.item := by
  have hrest : (ws.map Change.line).filterMap item? = ws.map Change.item := by
    rw [List.filterMap_map]
    exact List.filterMap_eq_map_iff_forall_eq_some.mpr fun v _ => item_line v
  rw [changes, splitlines_strip, List.filterMap_cons, hrest]
  cases item? (firstLine w) <;> rfl

/-! ### The result -/

section
variable {rel : Text} {ws : List Change}

theorem firstLine_eq {w : Change} (h : w.index ≠ .unmodified) : firstLine w = w.line := if_neg h

theorem paths_iff : (changes (porcelain ws)).map Item.path = ws.map Change.path ↔ Readable ws := by
  cases ws with
  | nil => exact iff_of_true rfl ⟨nofun, nofun⟩
  | cons w ws =>
    have hitems : (ws.map Change.item).map Item.path = ws.map Change.name := List.map_map
    rw [changes_porcelain, List.map_append, hitems]
    by_cases hx : w.index = .unmodified
    · -- the first path has lost a character, or its line was too short
      refine iff_of_false (fun h => ?_) fun h => h.first w rfl hx
      cases hi : item? (firstLine w) with
      | none =>
        rw [hi] at h
        have := congrArg List.length h
        simp at this
      | some i =>
        rw [hi] at h
        have hpath : i.path = w.name.drop 1 := by
          rw [firstLine, if_pos hx, Change.line] at hi
          cases hn : w.name with
          | nil => exact absurd hn (name_ne w)
          | cons c cs =>
            rw [hn] at hi
            cases cs with
            | nil => cases hi
            | cons c' cs =>
              cases hi
              rfl
        exact name_tail_ne w (hpath.symm.trans (List.cons.inj h).1)
    · rw [firstLine_eq hx, item_line]
      show w.name :: ws.map Change.name = w.path :: ws.map Change.path ↔ _
      constructor
      · intro h
        have hall : (w :: ws).map Change.name = (w :: ws).map Change.path := h
        rw [List.map_inj_left] at hall
        refine ⟨fun v hv => ?_, fun v hv => (name_eq_iff v).mp (hall v hv)⟩
        cases hv
        exact hx
      · intro h
        exact List.map_congr_left (l := w :: ws) fun v hv => (name_eq_iff v).mpr (h.plain v hv)

theorem Readable.changes (h : Readable ws) : changes (porcelain ws) = ws.map Change.item := by
  cases ws with
  | nil => rfl
  | cons w ws =>
    rw [changes_porcelain, firstLine_eq (h.first w rfl), item_line]
    rfl

theorem Readable.inside (h : Readable ws) :
    Inside rel ws ↔ ∀ w ∈ ws, inScope rel w.path = true := by
  refine forall₂_congr fun w hw => ?_
  rw [Change.paths, (h.plain w hw).1]
  simp

theorem Readable.accepts (h : Readable ws) :
    validateScope (Git.changes (porcelain ws)) rel = .ok () ↔ Inside rel ws := by
  rw [h.inside, h.changes]
  have hpath : ∀ w ∈ ws, w.item.path = w.path := fun w hw => (name_eq_iff w).mpr (h.plain w hw)
  have hout : ((ws.map Change.item).map Item.path).filter (fun p => !inScope rel p) = [] ↔
      ∀ w ∈ ws, inScope rel w.path = true := by
    rw [List.filter_eq_nil_iff]
    simp only [List.map_map, List.mem_map, Function.comp_apply]
    constructor
    · intro hall w hw
      have := hall _ ⟨w, hw, rfl⟩
      rw [hpath w hw] at this
      simpa using this
    · rintro hall _ ⟨w, hw, rfl⟩
      rw [hpath w hw, hall w hw]
      exact Bool.false_ne_true
  rw [← hout, validateScope]
  split <;> simp_all

theorem commit_eq {message : Text} (hm : strip message ≠ []) (out : Text) :
    commit (.ok rel) (.ok ()) out message true =
      (validateScope (Git.changes out) rel).bind fun _ =>
        .ok (if Git.changes out = [] then .nothing else .committed (strip message)) := by
  unfold commit
  simp only [Bool.not_true, Bool.false_eq_true, if_false, hm]
  cases hv : validateScope (Git.changes out) rel with
  | error e => simp [hv, Bind.bind, Except.bind]
  | ok u =>
    by_cases hnil : Git.changes out = []
    · rw [hnil] at hv
      simp [hv, hnil, Bind.bind, Except.bind, pure, Except.pure]
    · simp [hv, hnil, Bind.bind, Except.bind, pure, Except.pure]

theorem validateScope_cases (rel : Text) (items : List Item) :
    validateScope items rel = .ok () ∨ ∃ e, validateScope items rel = .error e := by
  rw [validateScope]
  split
  · exact .inl rfl
  · exact .inr ⟨_, rfl⟩

theorem scoped_of_ok {items : List Item} (h : validateScope items rel = .ok ()) :
    items.filter (fun i => inScope rel i.path) = items := by
  rw [validateScope] at h
  split at h
  · rename_i hout
    rw [List.filter_eq_nil_iff] at hout
    refine List.filter_eq_self.mpr fun i hi => ?_
    simpa using hout i.path (List.mem_map_of_mem hi)
  · cases h

theorem Readable.scopedExactly (h : Readable ws) : ScopedExactly rel ws where
  paths := paths_iff.mpr h
  accepts := h.accepts
  commits message hm := by
    have hnil : Git.changes (porcelain ws) = [] ↔ ws = [] := by rw [h.changes, List.map_eq_nil_iff]
    constructor
    · intro hin
      rw [commit_eq hm, h.accepts.mpr hin]
      simp only [hnil]
      rfl
    · intro hout
      obtain hok | ⟨e, he⟩ := validateScope_cases rel (Git.changes (porcelain ws))
      · exact absurd (h.accepts.mp hok) hout
      · exact ⟨e, by rw [commit_eq hm, he]; rfl⟩
  syncs policy hp operation now := by
    constructor
    · intro hin hne
      have hok := h.accepts.mpr hin
      have hsome : Git.changes (porcelain ws) ≠ [] := by
        rw [h.changes]
        exact fun hnil => hne (List.map_eq_nil_iff.mp hnil)
      refine ⟨"ARET-MMU memory: ".toList ++ operation ++ " — ".toList ++ now,
        policy.autoPush && strip policy.branch ≠ [], ?_⟩
      simp only [automaticSync, Bind.bind, Except.bind, hp, Bool.not_true, Bool.false_eq_true,
        if_false, hok, scoped_of_ok hok, hsome, pure, Except.pure]
    · intro hout
      obtain hok | ⟨e, he⟩ := validateScope_cases rel (Git.changes (porcelain ws))
      · exact absurd (h.accepts.mp hok) hout
      · refine ⟨e, ?_⟩
        simp only [automaticSync, Bind.bind, Except.bind, hp, Bool.not_true, Bool.false_eq_true,
          if_false, he, pure, Except.pure]

/-- Commits are scoped exactly for the listings that are readable, whatever the directory is. -/
theorem scopedExactly_iff (rel : Text) (ws : List Change) : ScopedExactly rel ws ↔ Readable ws :=
  ⟨fun h => paths_iff.mp h.paths, fun h => h.scopedExactly⟩

end

/-- The database has changed and nothing else, and the commit is refused; a file is moved out of
the memory directory, and the commit is made. -/
theorem not_scopedExactly :
    ¬ ScopedExactly "m/.aret-memory".toList
      [.plain .unmodified .modified "m/.aret-memory/db".toList] ∧
    ¬ ScopedExactly "m/.aret-memory".toList
      [⟨.renamed, .unmodified, "b".toList, some "m/.aret-memory/a".toList, nofun, by decide⟩] := by
  constructor
  · intro h
    have hin : Inside "m/.aret-memory".toList
        [.plain .unmodified .modified "m/.aret-memory/db".toList] := by
      unfold Inside
      decide
    exact absurd (h.accepts.mpr hin) (by decide)
  · intro h
    have hok : validateScope (changes (porcelain
        [⟨.renamed, .unmodified, "b".toList, some "m/.aret-memory/a".toList, nofun, by decide⟩]))
        "m/.aret-memory".toList = .ok () := by decide
    have hin := h.accepts.mp hok _ List.mem_cons_self "b".toList (by decide)
    exact absurd hin (by decide)

end Aret.Memory.Git
