/-
The `continue`s that the structured listing leaves out.
-/
import Aret.Simulation
import Mathlib.Data.List.DropRight

namespace Aret.Structure

abbrev Text := List Char

/-! ### The pass -/

/-- White space of Unicode. -/
def isWhite (c : Char) : Bool :=
  let n := c.toNat
  9 ≤ n && n ≤ 13 || n == 32 || n == 0x85 || n == 0xA0 || n == 0x1680 ||
    0x2000 ≤ n && n ≤ 0x200A || n == 0x2028 || n == 0x2029 || n == 0x202F || n == 0x205F ||
    n == 0x3000

def trim (l : Text) : Text := (l.dropWhile isWhite).rdropWhile isWhite

def isContinue (l : Text) : Bool := trim l = "continue;".toList
def isBlank (l : Text) : Bool := trim l = []
def isClose (l : Text) : Bool := trim l = "\x7d".toList
def isElse (l : Text) : Bool := trim l = "\x7d else \x7b".toList
def isOpen (l : Text) : Bool := (trim l).getLast? = some '{'
def isLoop (l : Text) : Bool := "while (true)".toList.isPrefixOf (trim l)

/-- The next `k` lines that are not blank close blocks. -/
def closes : ℕ → List Text → Bool
  | 0, _ => true
  | _ + 1, [] => false
  | k + 1, l :: ls => if isBlank l then closes (k + 1) ls else isClose l && closes k ls

/-- `closes_needed`, with the innermost block first on the stack. -/
def closesNeeded (stack : List Bool) : Option ℕ :=
  if true ∈ stack then some ((stack.takeWhile (! ·)).length + 1) else none

/-- A `continue` before these lines changes nothing. -/
def redundant (stack : List Bool) (ls : List Text) : Bool :=
  match closesNeeded stack with
  | none => false
  | some k => closes k ls

/-- The lines that stay. -/
def scan : List Bool → List Text → List Text
  | _, [] => []
  | stack, l :: ls =>
    if isContinue l then
      if redundant stack ls then scan stack ls else l :: scan stack ls
    else if isOpen l then
      l :: scan (if isElse l then stack else isLoop l :: stack) ls
    else l :: scan (if isClose l then stack.tail else stack) ls

/-- `drop_redundant_continues`, on the lines of the listing. -/
def dropLines (ls : List Text) : List Text := scan [] ls

/-! ### Nested listings -/

/-- A listing whose blocks are nested. -/
inductive Code
  | nil
  | line (l : Text) (rest : Code)
  | block (o : Text) (body : Code) (c : Text) (rest : Code)
  | branch (o : Text) (yes : Code) (m : Text) (no : Code) (c : Text) (rest : Code)
  | loop (o : Text) (body : Code) (c : Text) (rest : Code)

namespace Code

def lines : Code → List Text
  | nil => []
  | line l rest => l :: rest.lines
  | block o body c rest => o :: (body.lines ++ c :: rest.lines)
  | branch o yes m no c rest => o :: (yes.lines ++ m :: (no.lines ++ c :: rest.lines))
  | loop o body c rest => o :: (body.lines ++ c :: rest.lines)

/-- Lines stand where their text says: those that open a block end in a brace, `} else {` is
between the arms, `}` closes. -/
def Nested : Code → Prop
  | nil => True
  | line l rest => isOpen l = false ∧ isClose l = false ∧ rest.Nested
  | block o body c rest =>
    (isOpen o ∧ isElse o = false ∧ isLoop o = false) ∧ isClose c ∧ body.Nested ∧ rest.Nested
  | branch o yes m no c rest =>
    (isOpen o ∧ isElse o = false ∧ isLoop o = false) ∧ isElse m ∧ isClose c ∧ yes.Nested ∧
      no.Nested ∧ rest.Nested
  | loop o body c rest =>
    (isOpen o ∧ isElse o = false ∧ isLoop o) ∧ isClose c ∧ body.Nested ∧ rest.Nested

/-- Only blank lines. -/
def blank : Code → Bool
  | nil => true
  | line l rest => isBlank l && rest.blank
  | _ => false

/-- The code without its redundant `continue`s; `falls` says that control falls from its end to the
end of the innermost loop. -/
def drop (falls : Bool) : Code → Code
  | nil => nil
  | line l rest =>
    if isContinue l && (rest.blank && falls) then rest.drop falls else line l (rest.drop falls)
  | block o body c rest => block o (body.drop (rest.blank && falls)) c (rest.drop falls)
  | branch o yes m no c rest =>
    branch o (yes.drop false) m (no.drop (rest.blank && falls)) c (rest.drop falls)
  | loop o body c rest => loop o (body.drop true) c (rest.drop falls)

end Code

/-! ### Execution -/

/-- Where control goes after a statement. -/
inductive Next
  | go
  | leave
  | again
  | jump (label : Text)
  | stop

/-- What statements and the headers of blocks do; a header says whether its block is entered. -/
structure Interp (σ : Type) where
  exec : Text → σ → σ × Next
  cond : Text → σ → σ × Bool

inductive Frame
  | block (rest : Code)
  | loop (body rest : Code)

/-- A place in the code: what comes next, and the blocks around it from the innermost on. -/
abbrev Place := Code × List Frame

/-- Where a `continue` goes. -/
def continueTo : List Frame → Option Place
  | [] => none
  | .block _ :: K => continueTo K
  | .loop body rest :: K => some (body, .loop body rest :: K)

/-- Where a `break` goes. -/
def breakTo : List Frame → Option Place
  | [] => none
  | .block _ :: K => breakTo K
  | .loop _ rest :: K => some (rest, K)

/-- The label that a line sets. -/
def label? (l : Text) : Option Text :=
  if (trim l).getLast? = some ':' then some (trim l).dropLast else none

/-- The place behind a label. -/
def find (label : Text) : Code → List Frame → Option Place
  | .nil, _ => none
  | .line l rest, K => if label? l = some label then some (rest, K) else find label rest K
  | .block _ body _ rest, K => (find label body (.block rest :: K)).or (find label rest K)
  | .branch _ yes _ no _ rest, K =>
    (find label yes (.block rest :: K)).or
      ((find label no (.block rest :: K)).or (find label rest K))
  | .loop _ body _ rest, K => (find label body (.loop body rest :: K)).or (find label rest K)

/-- A stage of a run: the place, the statements that were executed, and the state. -/
structure Config (σ : Type) where
  place : Place
  trace : List Text
  state : σ

section
variable {σ : Type} (I : Interp σ) (prog : Code)

def Config.goTo (c : Config σ) (p : Option Place) : Option (Config σ) :=
  p.map fun p => { c with place := p }

/-- A statement or header that was executed. -/
def Config.after (c : Config σ) (l : Text) (s : σ) : Config σ :=
  { c with trace := c.trace ++ [trim l], state := s }

/-- A step of the listing `prog`; there is none at its end and where a place does not exist. -/
def step (c : Config σ) : Option (Config σ) :=
  match c.place with
  | (.nil, []) => none
  | (.nil, .block rest :: K) => c.goTo (some (rest, K))
  | (.nil, .loop body rest :: K) => c.goTo (some (body, .loop body rest :: K))
  | (.line l rest, K) =>
    if isBlank l || (label? l).isSome then c.goTo (some (rest, K))
    else if isContinue l then c.goTo (continueTo K)
    else
      let r := I.exec (trim l) c.state
      (c.after l r.1).goTo (match r.2 with
        | .go => some (rest, K)
        | .leave => breakTo K
        | .again => continueTo K
        | .jump label => find label prog []
        | .stop => some (.nil, []))
  | (.block o body _ rest, K) =>
    let r := I.cond (trim o) c.state
    (c.after o r.1).goTo (some (if r.2 then (body, .block rest :: K) else (rest, K)))
  | (.branch o yes _ no _ rest, K) =>
    let r := I.cond (trim o) c.state
    (c.after o r.1).goTo (some (if r.2 then (yes, .block rest :: K) else (no, .block rest :: K)))
  | (.loop _ body _ rest, K) => c.goTo (some (body, .loop body rest :: K))

/-- What is seen of a run. -/
def Config.view (c : Config σ) : List Text × σ := (c.trace, c.state)

/-- The beginning of a run. -/
def Code.start (s : σ) : Config σ := ⟨(prog, []), [], s⟩

end

/-! ### What the pass drops -/

theorem not_close_of_open {l : Text} (h : isOpen l = true) : isClose l = false := by
  cases hc : isClose l with
  | false => rfl
  | true =>
    have ht : trim l = "\x7d".toList := of_decide_eq_true hc
    rw [isOpen, ht] at h
    cases h

theorem not_blank_of_open {l : Text} (h : isOpen l = true) : isBlank l = false := by
  cases hb : isBlank l with
  | false => rfl
  | true =>
    have ht : trim l = [] := of_decide_eq_true hb
    rw [isOpen, ht] at h
    cases h

theorem not_continue_of_open {l : Text} (h : isOpen l = true) : isContinue l = false := by
  cases hc : isContinue l with
  | false => rfl
  | true =>
    have ht : trim l = "continue;".toList := of_decide_eq_true hc
    rw [isOpen, ht] at h
    cases h

theorem open_of_else {l : Text} (h : isElse l = true) : isOpen l = true := by
  have ht : trim l = "\x7d else \x7b".toList := of_decide_eq_true h
  rw [isOpen, ht]
  rfl

theorem of_close {l : Text} (h : isClose l = true) :
    isContinue l = false ∧ isOpen l = false ∧ isBlank l = false := by
  have ht : trim l = "\x7d".toList := of_decide_eq_true h
  rw [isContinue, isOpen, isBlank, ht]
  decide

theorem of_continue {l : Text} (h : isContinue l = true) :
    isBlank l = false ∧ label? l = none := by
  have ht : trim l = "continue;".toList := of_decide_eq_true h
  rw [isBlank, label?, ht]
  decide

theorem closes_close {c : Text} (hc : isClose c = true) (k : ℕ) (ls : List Text) :
    closes (k + 1) (c :: ls) = closes k ls := by
  rw [closes, (of_close hc).2.2, if_neg Bool.false_ne_true, hc, Bool.true_and]

theorem closes_open {o : Text} (ho : isOpen o = true) (k : ℕ) (ls : List Text) :
    closes (k + 1) (o :: ls) = false := by
  rw [closes, not_blank_of_open ho, if_neg Bool.false_ne_true, not_close_of_open ho,
    Bool.false_and]

/-- Nested code in front of closing lines has to be blank. -/
theorem closes_lines {code : Code} (h : code.Nested) (k : ℕ) (tail : List Text) :
    closes (k + 1) (code.lines ++ tail) = (code.blank && closes (k + 1) tail) := by
  induction code with
  | nil => rfl
  | line l rest ih =>
    obtain ⟨-, hclose, hrest⟩ := h
    rw [Code.lines, List.cons_append, closes, Code.blank, ih hrest, hclose]
    cases isBlank l <;> rfl
  | block o body c rest => exact closes_open h.1.1 k _
  | branch o yes m no c rest => exact closes_open h.1.1 k _
  | loop o body c rest => exact closes_open h.1.1 k _

theorem redundant_lines {code : Code} (h : code.Nested) (stack : List Bool) (tail : List Text) :
    redundant stack (code.lines ++ tail) = (code.blank && redundant stack tail) := by
  unfold redundant closesNeeded
  split
  · rename_i hn
    rw [Bool.and_false]
  · rename_i k hk
    split at hk
    · cases hk
      exact closes_lines h _ tail
    · cases hk

theorem redundant_block {c : Text} (hc : isClose c = true) (stack : List Bool)
    (tail : List Text) : redundant (false :: stack) (c :: tail) = redundant stack tail := by
  unfold redundant closesNeeded
  by_cases hmem : true ∈ stack
  · rw [if_pos (List.mem_cons_of_mem _ hmem), if_pos hmem]
    exact closes_close hc _ tail
  · rw [if_neg (by simpa using hmem), if_neg hmem]

theorem redundant_loop {c : Text} (hc : isClose c = true) (stack : List Bool)
    (tail : List Text) : redundant (true :: stack) (c :: tail) = true := by
  unfold redundant closesNeeded
  rw [if_pos List.mem_cons_self]
  show closes (0 + 1) (c :: tail) = true
  rw [closes_close hc, closes]

theorem redundant_else {m : Text} (hm : isElse m = true) (stack : List Bool)
    (tail : List Text) : redundant stack (m :: tail) = false := by
  unfold redundant
  split
  · rfl
  · rename_i k hk
    unfold closesNeeded at hk
    split at hk
    · cases hk
      exact closes_open (open_of_else hm) _ tail
    · cases hk

theorem scan_open {o : Text} (ho : isOpen o = true) (he : isElse o = false) (stack : List Bool)
    (ls : List Text) : scan stack (o :: ls) = o :: scan (isLoop o :: stack) ls := by
  rw [scan, not_continue_of_open ho, if_neg Bool.false_ne_true, if_pos ho, he,
    if_neg Bool.false_ne_true]

theorem scan_else {m : Text} (hm : isElse m = true) (stack : List Bool) (ls : List Text) :
    scan stack (m :: ls) = m :: scan stack ls := by
  rw [scan, not_continue_of_open (open_of_else hm), if_neg Bool.false_ne_true,
    if_pos (open_of_else hm), if_pos hm]

theorem scan_close {c : Text} (hc : isClose c = true) (b : Bool) (stack : List Bool)
    (ls : List Text) : scan (b :: stack) (c :: ls) = c :: scan stack ls := by
  rw [scan, (of_close hc).1, if_neg Bool.false_ne_true, (of_close hc).2.1,
    if_neg Bool.false_ne_true, if_pos hc, List.tail_cons]

/-- The pass drops what `Code.drop` drops, whatever follows the code. -/
theorem scan_lines {code : Code} (h : code.Nested) (stack : List Bool) (tail : List Text) :
    scan stack (code.lines ++ tail) =
      (code.drop (redundant stack tail)).lines ++ scan stack tail := by
  induction code generalizing stack tail with
  | nil => rfl
  | line l rest ih =>
    obtain ⟨hopen, hclose, hrest⟩ := h
    rw [Code.lines, List.cons_append, scan, Code.drop, redundant_lines hrest, hopen,
      hclose, if_neg Bool.false_ne_true, if_neg Bool.false_ne_true, ih hrest]
    cases isContinue l with
    | false => rfl
    | true =>
      rw [if_pos rfl, Bool.true_and]
      split <;> rfl
  | block o body c rest ihb ihr =>
    obtain ⟨⟨ho, he, hl⟩, hc, hbody, hrest⟩ := h
    rw [Code.lines, List.cons_append, List.append_assoc, List.cons_append, scan_open ho he, hl,
      ihb hbody, redundant_block hc, scan_close hc, redundant_lines hrest, ihr hrest, Code.drop,
      Code.lines, List.cons_append, List.append_assoc, List.cons_append]
  | branch o yes m no c rest ihy ihn ihr =>
    obtain ⟨⟨ho, he, hl⟩, hm, hc, hyes, hno, hrest⟩ := h
    rw [Code.lines, List.cons_append, List.append_assoc, List.cons_append, List.append_assoc,
      List.cons_append, scan_open ho he, hl, ihy hyes, redundant_else hm, scan_else hm, ihn hno,
      redundant_block hc, scan_close hc, redundant_lines hrest, ihr hrest, Code.drop, Code.lines,
      List.cons_append, List.append_assoc, List.cons_append, List.append_assoc, List.cons_append]
  | loop o body c rest ihb ihr =>
    obtain ⟨⟨ho, he, hl⟩, hc, hbody, hrest⟩ := h
    rw [Code.lines, List.cons_append, List.append_assoc, List.cons_append, scan_open ho he, hl,
      ihb hbody, redundant_loop hc, scan_close hc, ihr hrest, Code.drop, Code.lines,
      List.cons_append, List.append_assoc, List.cons_append]

theorem dropLines_lines {code : Code} (h : code.Nested) :
    dropLines code.lines = (code.drop false).lines := by
  have hscan := scan_lines h [] []
  rwa [List.append_nil, show scan [] [] = [] from rfl, List.append_nil] at hscan

theorem Code.nested_drop (code : Code) (h : code.Nested) (b : Bool) : (code.drop b).Nested := by
  induction code generalizing b with
  | nil => trivial
  | line l rest ih =>
    rw [Code.drop]
    split
    · exact ih h.2.2 b
    · exact ⟨h.1, h.2.1, ih h.2.2 b⟩
  | block o body c rest ihb ihr => exact ⟨h.1, h.2.1, ihb h.2.2.1 _, ihr h.2.2.2 _⟩
  | branch o yes m no c rest ihy ihn ihr =>
    exact ⟨h.1, h.2.1, h.2.2.1, ihy h.2.2.2.1 _, ihn h.2.2.2.2.1 _, ihr h.2.2.2.2.2 _⟩
  | loop o body c rest ihb ihr => exact ⟨h.1, h.2.1, ihb h.2.2.1 _, ihr h.2.2.2 _⟩

/-! ### Alike places -/

/-- Control falls from the end of the innermost block to the end of the innermost loop. -/
def falls : List Frame → Bool
  | [] => false
  | .block rest :: K => rest.blank && falls K
  | .loop _ _ :: _ => true

/-- The blocks around a place, and those around it in the code that is left. -/
inductive Around : List Frame → List Frame → Prop
  | nil : Around [] []
  | block {rest : Code} {K K' : List Frame} {b : Bool} (hb : b = true → falls K = true)
      (h : Around K K') : Around (.block rest :: K) (.block (rest.drop b) :: K')
  | loop {body rest : Code} {K K' : List Frame} {b : Bool} (hb : b = true → falls K = true)
      (h : Around K K') :
      Around (.loop body rest :: K) (.loop (body.drop true) (rest.drop b) :: K')

/-- A place, and where it is in the code that is left. -/
inductive Alike : Place → Place → Prop
  | mk {code : Code} {K K' : List Frame} {b : Bool} (hb : b = true → falls K = true)
      (h : Around K K') : Alike (code, K) (code.drop b, K')

theorem blank_falls {rest : Code} {K : List Frame} {b : Bool} (hb : b = true → falls K = true)
    (h : (rest.blank && b) = true) : falls (.block rest :: K) = true := by
  rw [Bool.and_eq_true] at h
  rw [falls, h.1, hb h.2]
  rfl

section
variable {K K' : List Frame}

theorem Around.continueTo (h : Around K K') :
    Option.Rel Alike (continueTo K) (continueTo K') := by
  induction h with
  | nil => exact .none
  | block hb h ih => exact ih
  | loop hb h ih => exact .some (.mk (fun _ => rfl) (.loop hb h))

theorem Around.breakTo (h : Around K K') : Option.Rel Alike (breakTo K) (breakTo K') := by
  induction h with
  | nil => exact .none
  | block hb h ih => exact ih
  | loop hb h ih => exact .some (.mk hb h)

theorem rel_or {x x' y y' : Option Place} (h : Option.Rel Alike x x')
    (h' : Option.Rel Alike y y') : Option.Rel Alike (x.or y) (x'.or y') := by
  cases h with
  | none => exact h'
  | some h => exact .some h

/-- A label is found at the same place. -/
theorem Around.find (h : Around K K') (label : Text) (code : Code) {b : Bool}
    (hb : b = true → falls K = true) :
    Option.Rel Alike (find label code K) (find label (code.drop b) K') := by
  induction code generalizing K K' b with
  | nil => exact .none
  | line l rest ih =>
    rw [Code.drop]
    show Option.Rel Alike (if label? l = some label then some (rest, K)
      else Structure.find label rest K) _
    by_cases hdrop : (isContinue l && (rest.blank && b)) = true
    · -- a line that is left out is no label
      rw [if_pos hdrop]
      rw [Bool.and_eq_true] at hdrop
      rw [(of_continue hdrop.1).2, if_neg nofun]
      exact ih h hb
    · rw [if_neg hdrop]
      show Option.Rel Alike _ (if label? l = some label then some (rest.drop b, K')
        else Structure.find label (rest.drop b) K')
      split
      · exact .some (.mk hb h)
      · exact ih h hb
  | block o body c rest ihb ihr =>
    exact rel_or (ihb (.block hb h) (blank_falls hb)) (ihr h hb)
  | branch o yes m no c rest ihy ihn ihr =>
    exact rel_or (ihy (.block hb h) nofun)
      (rel_or (ihn (.block hb h) (blank_falls hb)) (ihr h hb))
  | loop o body c rest ihb ihr => exact rel_or (ihb (.loop hb h) fun _ => rfl) (ihr h hb)

end

/-! ### The simulation -/

section
variable {σ : Type} {I : Interp σ} {prog : Code}

/-- Stages of the two runs. -/
structure Matches (c c' : Config σ) : Prop where
  place : Alike c.place c'.place
  trace : c'.trace = c.trace
  state : c'.state = c.state

theorem rel_goTo {c c' : Config σ} (htr : c'.trace = c.trace) (hs : c'.state = c.state)
    {p p' : Option Place} (hp : Option.Rel Alike p p') :
    Option.Rel Matches (c.goTo p) (c'.goTo p') := by
  cases hp with
  | none => exact .none
  | some hp => exact .some ⟨hp, htr, hs⟩

theorem not_continue_of_blank {l : Text} (h : isBlank l = true) : isContinue l = false := by
  cases hc : isContinue l with
  | false => rfl
  | true => exact absurd ((of_continue hc).1.symm.trans h) nofun

theorem Code.drop_blank {code : Code} (h : code.blank = true) (b : Bool) :
    code.drop b = code := by
  induction code with
  | nil => rfl
  | line l rest ih =>
    rw [Code.blank, Bool.and_eq_true] at h
    rw [Code.drop, not_continue_of_blank h.1, Bool.false_and, if_neg Bool.false_ne_true, ih h.2]
  | _ => cases h

/-- Blank lines lead to the end of their block. -/
theorem stepN_blank {K : List Frame} {tr : List Text} {s : σ} {q : Config σ} {k : ℕ}
    (h : Sim.stepN (step I prog) (k + 1) ⟨(.nil, K), tr, s⟩ = some q) {rest : Code}
    (hrest : rest.blank = true) :
    ∃ k, Sim.stepN (step I prog) (k + 1) ⟨(rest, K), tr, s⟩ = some q := by
  induction rest with
  | nil => exact ⟨k, h⟩
  | line l rest ih =>
    rw [Code.blank, Bool.and_eq_true] at hrest
    obtain ⟨k, hk⟩ := ih hrest.2
    refine ⟨k + 1, ?_⟩
    have hstep : step I prog ⟨(.line l rest, K), tr, s⟩ = some ⟨(rest, K), tr, s⟩ := by
      show (if (isBlank l || (label? l).isSome) = true then _ else _) = _
      rw [hrest.1]
      rfl
    rw [Sim.stepN, hstep]
    exact hk
  | _ => cases hrest

variable (I prog) in
/-- Blank lines up to the end of the innermost loop lead where a `continue` goes. -/
theorem stepN_falls {K K' : List Frame} (h : Around K K') (hfalls : falls K = true) {rest : Code}
    (hrest : rest.blank = true) (tr : List Text) (s : σ) :
    ∃ k p, continueTo K' = some p ∧
      Sim.stepN (step I prog) (k + 1) ⟨(rest, K'), tr, s⟩ = some ⟨p, tr, s⟩ := by
  induction h generalizing rest with
  | nil => cases hfalls
  | @block next K K' b hb h ih =>
    rw [falls, Bool.and_eq_true] at hfalls
    obtain ⟨k, p, hp, hk⟩ := ih hfalls.2 hfalls.1
    have hnil : Sim.stepN (step I prog) (k + 1 + 1)
        ⟨(.nil, .block (next.drop b) :: K'), tr, s⟩ = some ⟨p, tr, s⟩ := by
      rw [Code.drop_blank hfalls.1]
      exact hk
    obtain ⟨k, hk⟩ := stepN_blank hnil hrest
    exact ⟨k, p, hp, hk⟩
  | @loop body next K K' b hb h ih =>
    have hnil : Sim.stepN (step I prog) (0 + 1)
        ⟨(.nil, .loop (body.drop true) (next.drop b) :: K'), tr, s⟩ =
        some ⟨(body.drop true, .loop (body.drop true) (next.drop b) :: K'), tr, s⟩ := rfl
    obtain ⟨k, hk⟩ := stepN_blank hnil hrest
    exact ⟨k, _, rfl, hk⟩

/-- Places whose steps match one by one. -/
theorem step_line {l : Text} {rest : Code} {K K' : List Frame} {b : Bool}
    (hb : b = true → falls K = true) (ha : Around K K') (tr : List Text) (s : σ) :
    Option.Rel Matches (step I prog ⟨(.line l rest, K), tr, s⟩)
      (step I (prog.drop false) ⟨(.line l (rest.drop b), K'), tr, s⟩) := by
  have hrest : Alike (rest, K) (rest.drop b, K') := .mk hb ha
  unfold step
  dsimp only
  split
  · exact rel_goTo rfl rfl (.some hrest)
  split
  · exact rel_goTo rfl rfl ha.continueTo
  refine rel_goTo rfl rfl ?_
  cases (I.exec (trim l) s).2 with
  | go => exact .some hrest
  | leave => exact ha.breakTo
  | again => exact ha.continueTo
  | jump label => exact Around.nil.find (b := false) label prog nofun
  | stop => exact .some (.mk (b := false) nofun .nil)

variable (I prog) in
/-- A step is matched by one step, or is a dropped `continue`, and then by the blank lines and
closing braces behind it. -/
theorem Alike.step {p p' : Place} (h : Alike p p') (tr : List Text) (s : σ) :
    Option.Rel Matches (step I prog ⟨p, tr, s⟩) (step I (prog.drop false) ⟨p', tr, s⟩) ∨
    ∃ q k q', Structure.step I prog ⟨p, tr, s⟩ = some ⟨q, tr, s⟩ ∧
      Sim.stepN (Structure.step I (prog.drop false)) (k + 1) ⟨p', tr, s⟩ = some ⟨q', tr, s⟩ ∧
      Alike q q' := by
  obtain @⟨code, K, K', b, hb, ha⟩ := h
  cases code with
  | nil =>
    left
    cases ha with
    | nil => exact .none
    | block hb' ha' => exact .some ⟨.mk hb' ha', rfl, rfl⟩
    | loop hb' ha' => exact .some ⟨.mk (fun _ => rfl) (.loop hb' ha'), rfl, rfl⟩
  | line l rest =>
    rw [Code.drop]
    split
    · rename_i hdrop
      rw [Bool.and_eq_true, Bool.and_eq_true] at hdrop
      obtain ⟨hl, hblank, hfalls⟩ := hdrop
      obtain ⟨k, q', hq', hk⟩ := stepN_falls I (prog.drop false) ha (hb hfalls) hblank tr s
      have hto := ha.continueTo
      rw [hq'] at hto
      obtain ⟨q, hq, hqq⟩ : ∃ q, continueTo K = some q ∧ Alike q q' := by
        generalize continueTo K = o at hto
        cases hto with
        | some h => exact ⟨_, rfl, h⟩
      refine .inr ⟨q, k, q', ?_, ?_, hqq⟩
      · show (if (isBlank l || (label? l).isSome) = true then _ else _) = _
        rw [(of_continue hl).1, (of_continue hl).2, if_neg nofun, if_pos hl, hq]
        rfl
      · rw [Code.drop_blank hblank]
        exact hk
    · exact .inl (step_line hb ha tr s)
  | block o body c rest =>
    left
    rw [Code.drop]
    unfold Structure.step
    dsimp only
    refine rel_goTo rfl rfl (.some ?_)
    cases (I.cond (trim o) s).2 with
    | true => exact .mk (blank_falls hb) (.block hb ha)
    | false => exact .mk hb ha
  | branch o yes m no c rest =>
    left
    rw [Code.drop]
    unfold Structure.step
    dsimp only
    refine rel_goTo rfl rfl (.some ?_)
    cases (I.cond (trim o) s).2 with
    | true => exact .mk nofun (.block hb ha)
    | false => exact .mk (blank_falls hb) (.block hb ha)
  | loop o body c rest => exact .inl (.some ⟨.mk (fun _ => rfl) (.loop hb ha), rfl, rfl⟩)

theorem isSimulation (I : Interp σ) (prog : Code) :
    Sim.IsSimulation (step I prog) Config.view (step I (prog.drop false)) Config.view
      Matches where
  view h := by
    unfold Config.view
    rw [h.trace, h.state]
  step := by
    rintro ⟨p, tr, s⟩ ⟨p', tr', s'⟩ c₁ ⟨hp, rfl, rfl⟩ hc
    rcases hp.step I prog tr' s' with h | ⟨q, k, q', hq, hk, hqq⟩
    · rw [hc] at h
      generalize ho : step I (prog.drop false) ⟨p', tr', s'⟩ = o at h
      cases h with
      | some h => exact ⟨0, _, by rw [Sim.stepN, ho]; rfl, h⟩
    · cases hq.symm.trans hc
      exact ⟨k, _, hk, hqq, rfl, rfl⟩
  stop := by
    rintro ⟨p, tr, s⟩ ⟨p', tr', s'⟩ ⟨hp, rfl, rfl⟩ hc
    rcases hp.step I prog tr' s' with h | ⟨q, k, q', hq, -, -⟩
    · rw [hc] at h
      generalize ho : step I (prog.drop false) ⟨p', tr', s'⟩ = o at h
      cases h with
      | none => exact ⟨0, _, rfl, ho, rfl⟩
    · cases hq.symm.trans hc

theorem sameRuns_drop (I : Interp σ) (prog : Code) (s : σ) :
    Sim.SameRuns (step I prog) Config.view (step I (prog.drop false)) Config.view
      (prog.start s) ((prog.drop false).start s) :=
  .of_simulation (isSimulation I prog) ⟨.mk (b := false) nofun .nil, rfl, rfl⟩

end

/-! ### Listings -/

/-- What stands behind the code that is being read, from the end of a listing on. -/
inductive Behind
  | close (c : Text) (rest : Code)
  | arm (m : Text) (no : Code) (c : Text) (rest : Code)

/-- One more line, in front of the code that was read. -/
def readLine (l : Text) : Option (Code × List Behind) → Option (Code × List Behind)
  | none => none
  | some (code, K) =>
    if isElse l then
      match K with
      | .close c rest :: K => some (.nil, .arm l code c rest :: K)
      | _ => none
    else if isOpen l then
      match K with
      | .close c rest :: K =>
        some (if isLoop l then .loop l code c rest else .block l code c rest, K)
      | .arm m no c rest :: K => some (.branch l code m no c rest, K)
      | [] => none
    else if isClose l then some (.nil, .close l code :: K)
    else some (.line l code, K)

/-- The code of a listing. -/
def parse (ls : List Text) : Option Code :=
  match ls.foldr readLine (some (.nil, [])) with
  | some (code, []) => some code
  | _ => none

/-- Code with more code behind it. -/
def Code.append : Code → Code → Code
  | nil, more => more
  | line l rest, more => line l (rest.append more)
  | block o body c rest, more => block o body c (rest.append more)
  | branch o yes m no c rest, more => branch o yes m no c (rest.append more)
  | loop o body c rest, more => loop o body c (rest.append more)

theorem Code.append_nil (code : Code) : code.append nil = code := by
  induction code with
  | nil => rfl
  | line l rest ih => rw [append, ih]
  | block o body c rest _ ih => rw [append, ih]
  | branch o yes m no c rest _ _ ih => rw [append, ih]
  | loop o body c rest _ ih => rw [append, ih]

theorem not_else_of_not_open {l : Text} (h : isOpen l = false) : isElse l = false := by
  cases he : isElse l with
  | false => rfl
  | true => exact absurd (h.symm.trans (open_of_else he)) nofun

/-- The lines of nested code are read in front of what was read before. -/
theorem foldr_readLine {code : Code} (h : code.Nested) (cur : Code) (K : List Behind) :
    code.lines.foldr readLine (some (cur, K)) = some (code.append cur, K) := by
  have hclose : ∀ {c : Text} (code : Code) (K : List Behind), isClose c = true →
      readLine c (some (code, K)) = some (.nil, .close c code :: K) := by
    intro c code K hc
    have ho := (of_close hc).2.1
    simp [readLine, not_else_of_not_open ho, ho, hc]
  induction code generalizing cur K with
  | nil => rfl
  | line l rest ih =>
    obtain ⟨ho, hc, hrest⟩ := h
    rw [Code.lines, List.foldr_cons, ih hrest, Code.append]
    simp [readLine, not_else_of_not_open ho, ho, hc]
  | block o body c rest ihb ihr =>
    obtain ⟨⟨ho, he, hl⟩, hc, hbody, hrest⟩ := h
    rw [Code.lines, List.foldr_cons, List.foldr_append, List.foldr_cons, ihr hrest,
      hclose _ _ hc, ihb hbody, Code.append_nil, Code.append]
    simp [readLine, he, ho, hl]
  | branch o yes m no c rest ihy ihn ihr =>
    obtain ⟨⟨ho, he, hl⟩, hm, hc, hyes, hno, hrest⟩ := h
    have hmid : ∀ code rest K, readLine m (some (code, .close c rest :: K)) =
        some (.nil, .arm m code c rest :: K) := by
      intro code rest K
      simp [readLine, hm]
    rw [Code.lines, List.foldr_cons, List.foldr_append, List.foldr_cons, List.foldr_append,
      List.foldr_cons, ihr hrest, hclose _ _ hc, ihn hno, Code.append_nil, hmid, ihy hyes,
      Code.append_nil, Code.append]
    simp [readLine, he, ho]
  | loop o body c rest ihb ihr =>
    obtain ⟨⟨ho, he, hl⟩, hc, hbody, hrest⟩ := h
    rw [Code.lines, List.foldr_cons, List.foldr_append, List.foldr_cons, ihr hrest,
      hclose _ _ hc, ihb hbody, Code.append_nil, Code.append]
    simp [readLine, he, ho, hl]

/-- A nested listing has its code back. -/
theorem parse_lines {code : Code} (h : code.Nested) : parse code.lines = some code := by
  rw [parse, foldr_readLine h, Code.append_nil]

/-- **The pass preserves every properly nested listing**: what it leaves is the listing of the code
without the `continue`s from which control falls to the end of their loop, and runs as before. -/
theorem dropLines_preserves {σ : Type} (I : Interp σ) (prog : Code) (h : prog.Nested) (s : σ) :
    parse prog.lines = some prog ∧
    parse (dropLines prog.lines) = some (prog.drop false) ∧
    Sim.SameRuns (step I prog) Config.view (step I (prog.drop false)) Config.view
      (prog.start s) ((prog.drop false).start s) := by
  refine ⟨parse_lines h, ?_, sameRuns_drop I prog s⟩
  rw [dropLines_lines h]
  exact parse_lines (prog.nested_drop h false)

/-- A loop whose body ends with an `if` that ends with a `continue`. -/
def sample : Code :=
  .loop "while (true) \x7b".toList
    (.block "  if (eax) \x7b".toList (.line "    continue;".toList .nil) "  \x7d".toList .nil)
    "\x7d".toList .nil

/-- Statements that do nothing, and conditions that hold every other time. -/
def alternating : Interp ℕ := ⟨fun _ n => (n, .go), fun _ n => (n + 1, n % 2 = 0)⟩

theorem dropLines_preserves_sample :
    dropLines sample.lines = ["while (true) \x7b", "  if (eax) \x7b", "  \x7d", "\x7d"].map String.toList ∧
    Sim.SameRuns (step alternating sample) Config.view (step alternating (sample.drop false))
      Config.view (sample.start 0) ((sample.drop false).start 0) := by
  have hnested : sample.Nested := by
    simp only [sample, Code.Nested]
    decide
  exact ⟨by decide, (dropLines_preserves alternating sample hnested 0).2.2⟩

end Aret.Structure
