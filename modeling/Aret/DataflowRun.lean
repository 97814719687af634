/-
What lifted lines do.

Design notes: the lifter drops the arithmetic on the stack pointer, so pushes and
pops act on the world, and a call is a line `name(…);` or `(*…)(…);`.
-/
import Aret.Dataflow
import Aret.Fields
import Mathlib.Data.List.DropRight
import Mathlib.Data.List.TakeWhile

namespace Aret
namespace Dataflow

/-! ### Words -/

section
variable {c : Char} (cur xs ys : Text) {op : Text}

theorem wordsFrom_append (hc : isWordByte c = false) :
    wordsFrom cur (xs ++ c :: ys) = wordsFrom cur xs ++ wordsFrom [] ys := by
  induction xs generalizing cur with
  | nil => simp [wordsFrom, hc]
  | cons x xs ih =>
    rw [List.cons_append, wordsFrom, wordsFrom]
    split_ifs
    · exact ih _
    · rw [ih, List.append_assoc]
    · rw [ih, List.append_assoc]

theorem identifiers_append (hc : isWordByte c = false) :
    identifiers (xs ++ c :: ys) = identifiers xs ++ identifiers ys := by
  rw [identifiers, wordsFrom_append [] xs ys hc, List.filter_append]
  rfl

theorem identifiers_op (hop : op ≠ []) (h : ∀ c ∈ op, isWordByte c = false) :
    identifiers (xs ++ (op ++ ys)) = identifiers xs ++ identifiers ys := by
  have hlead : ∀ op : Text, (∀ c ∈ op, isWordByte c = false) →
      identifiers (op ++ ys) = identifiers ys := by
    intro op
    induction op with
    | nil => exact fun _ => rfl
    | cons c op ih =>
      intro h
      obtain ⟨hc, hop⟩ := List.forall_mem_cons.mp h
      have happ := identifiers_append [] (op ++ ys) hc
      exact happ.trans (ih hop)
  cases op with
  | nil => exact absurd rfl hop
  | cons c op =>
    obtain ⟨hc, hrest⟩ := List.forall_mem_cons.mp h
    rw [List.cons_append, identifiers_append _ _ hc, hlead op hrest]

theorem isWordByte_of_isSpace (h : isSpace c = true) : isWordByte c = false := by
  have hcases : c = ' ' ∨ c = '\t' ∨ c = '\r' ∨ c = '\n' ∨ c = '\x0b' ∨ c = '\x0c' := by
    simpa [isSpace, Char.isWhitespace, or_assoc] using h
  rcases hcases with rfl | rfl | rfl | rfl | rfl | rfl <;> rfl

theorem identifiers_trim (s : Text) : identifiers (trim s) = identifiers s := by
  have hlead : ∀ pre ys : Text, (∀ c ∈ pre, isSpace c = true) →
      identifiers (pre ++ ys) = identifiers ys := by
    intro pre ys h
    induction pre with
    | nil => rfl
    | cons c pre ih =>
      obtain ⟨hc, hpre⟩ := List.forall_mem_cons.mp h
      have happ := identifiers_append [] (pre ++ ys) (isWordByte_of_isSpace hc)
      exact happ.trans (ih hpre)
  have htrail : ∀ xs post : Text, (∀ c ∈ post, isSpace c = true) →
      identifiers (xs ++ post) = identifiers xs := by
    intro xs post h
    cases post with
    | nil => rw [List.append_nil]
    | cons c post =>
      obtain ⟨hc, hpost⟩ := List.forall_mem_cons.mp h
      have hnil := hlead post [] hpost
      rw [List.append_nil] at hnil
      rw [identifiers_append _ _ (isWordByte_of_isSpace hc), hnil]
      exact List.append_nil _
  -- What is dropped at both ends is space.
  have hstart : s.takeWhile isSpace ++ trimStart s = s := List.takeWhile_append_dropWhile
  have hend : trim s ++ ((trimStart s).reverse.takeWhile isSpace).reverse = trimStart s := by
    rw [trim, trimEnd, ← List.reverse_append, List.takeWhile_append_dropWhile,
      List.reverse_reverse]
  calc identifiers (trim s)
      = identifiers (trim s ++ ((trimStart s).reverse.takeWhile isSpace).reverse) := by
        refine (htrail _ _ fun c hc => ?_).symm
        exact List.mem_takeWhile_imp (List.mem_reverse.mp hc)
    _ = identifiers (trimStart s) := by rw [hend]
    _ = identifiers (s.takeWhile isSpace ++ trimStart s) :=
        (hlead _ _ fun c hc => List.mem_takeWhile_imp hc).symm
    _ = identifiers s := by rw [hstart]

theorem mem_readFamilies {s : Text} {r : RegFamily} :
    r ∈ readFamilies s ↔ ∃ w ∈ identifiers s, regFamily w = some r := by
  have hadd : ∀ (out : List RegFamily) (w : Text),
      r ∈ addFamily out w ↔ r ∈ out ∨ regFamily w = some r := by
    intro out w
    rw [addFamily]
    cases regFamily w with
    | none => simp
    | some f =>
      dsimp only
      split_ifs with hf
      · constructor
        · exact .inl
        · rintro (hr | hr)
          · exact hr
          · exact Option.some.inj hr ▸ hf
      · rw [List.mem_append, List.mem_singleton, Option.some.injEq, eq_comm (a := r)]
  have hfold : ∀ (ws : List Text) (out : List RegFamily),
      r ∈ ws.foldl addFamily out ↔ r ∈ out ∨ ∃ w ∈ ws, regFamily w = some r := by
    intro ws
    induction ws with
    | nil => simp
    | cons w ws ih =>
      intro out
      rw [List.foldl_cons, ih, hadd, List.exists_mem_cons_iff, or_assoc]
  rw [readFamilies, hfold]
  simp

theorem mem_readFamilies_congr {s t : Text} {r : RegFamily} (h : identifiers s = identifiers t) :
    r ∈ readFamilies s ↔ r ∈ readFamilies t := by
  rw [mem_readFamilies, mem_readFamilies, h]

def regNames : List String := gprNames.flatMap Prod.snd ++ xmmNames

theorem mem_regNames {name : Text} {fam : RegFamily} (h : regFamily name = some fam) :
    ∃ n ∈ regNames, n.toList = name := by
  rw [regFamily] at h
  split at h
  · rename_i row hrow
    have hany : (row.2.any fun n => n.toList == name) = true :=
      List.find?_some (p := fun row : RegFamily × List String =>
        row.2.any fun n => n.toList == name) hrow
    obtain ⟨n, hn, heq⟩ := List.any_eq_true.mp hany
    refine ⟨n, List.mem_append_left _ ?_, beq_iff_eq.mp heq⟩
    exact List.mem_flatMap.mpr ⟨row, List.mem_of_find?_eq_some hrow, hn⟩
  · obtain ⟨i, hi, -⟩ := Option.map_eq_some_iff.mp h
    have heq : (xmmNames[i].toList == name) = true := (List.findFinIdx?_eq_some_iff.mp hi).1
    exact ⟨xmmNames[i], List.mem_append_right _ (List.getElem_mem _), beq_iff_eq.mp heq⟩

theorem readFamilies_name {name : Text} {fam : RegFamily} (h : regFamily name = some fam) :
    readFamilies name = [fam] := by
  -- The name of a register is one word.
  have hall : ∀ n ∈ regNames, identifiers n.toList = [n.toList] := by
    decide +kernel
  obtain ⟨n, hn, rfl⟩ := mem_regNames h
  rw [readFamilies, hall n hn, List.foldl_cons, List.foldl_nil, addFamily, h]
  rfl

end

/-! ### Registers -/

abbrev Regs := RegFamily → ℕ

def regBits (name : Text) : ℕ × ℕ :=
  match gprNames.find? fun row => row.2.any (·.toList == name) with
  | some row =>
    let parts := if row.2.length = 5 then [(0, 8), (8, 8), (0, 16), (0, 32), (0, 64)]
      else [(0, 8), (0, 16), (0, 32), (0, 64)]
    parts.getD (row.2.findIdx (·.toList == name)) (0, 64)
  | none => (0, 128)

def isPart (name : Text) : Bool := (regBits name).2 ≤ 16

namespace Regs

def read (σ : Regs) (name : Text) (fam : RegFamily) : ℕ :=
  Fields.get (σ fam) (regBits name).1 (regBits name).2

def write (σ : Regs) (name : Text) (fam : RegFamily) (v : ℕ) : Regs :=
  Function.update σ fam
    (if isPart name then Fields.put (σ fam) (regBits name).1 (regBits name).2 v
      else v % 2 ^ (regBits name).2)

theorem write_of_ne {σ : Regs} {name : Text} {fam f : RegFamily} {v : ℕ} (h : f ≠ fam) :
    σ.write name fam v f = σ f := Function.update_of_ne h _ _

theorem write_self (σ : Regs) (name : Text) (fam : RegFamily) (v : ℕ) :
    σ.write name fam v fam = if isPart name then
      Fields.put (σ fam) (regBits name).1 (regBits name).2 v else v % 2 ^ (regBits name).2 :=
  Function.update_self _ _ _

end Regs

def literal (s : Text) : ℕ :=
  let digit (c : Char) : ℕ :=
    if c.isDigit then c.toNat - '0'.toNat else if 'a' ≤ c then c.toNat - 'a'.toNat + 10
      else c.toNat - 'A'.toNat + 10
  match trim s with
  | '0' :: 'x' :: h => h.foldl (fun n c => 16 * n + digit c) 0
  | t => t.foldl (fun n c => 10 * n + digit c) 0

/-! ### Lines -/

inductive Act where
  | skip
  | assign (name : Text) (fam : RegFamily) (rhs : Text)
  | update (name : Text) (fam : RegFamily)
  /-- `reg = pop();`. -/
  | take (name : Text) (fam : RegFamily)
  | call
  /-- A store, a push, a line about memory. -/
  | effect
  /-- `__asm__`, and what the lifter does not print. -/
  | unknown
  deriving DecidableEq

def isComment (text : Text) : Bool := "//".toList.isPrefixOf (trim text)

def isPushLine (text : Text) : Bool := "push(".toList.isPrefixOf (trim text)

/-- A call: `name(…);` or `(*…)(…);`. -/
def isCallLine (text : Text) : Bool :=
  ");".toList.isSuffixOf (trim text) && !isPushLine text &&
    (isCallExpr text || "(*".toList.isPrefixOf (trim text))

def Stmt.act (s : Stmt) : Act :=
  match s.kind, s.write, s.rhs with
  | .assign, some (name, fam), some rhs => .assign name fam rhs
  | .compound, some (name, fam), _ => .update name fam
  | .keep, some (name, fam), _ =>
    if " = pop();".toList.isSuffixOf (trim s.text) then .take name fam else .unknown
  | .keep, none, _ =>
    if isComment s.text then .skip else if isCallLine s.text then .call else .effect
  | _, _, _ => .unknown

/-- What the text leaves open.  The world is memory and everything outside; it sees the values
that stores, pushes and calls are given. -/
structure Machine where
  World : Type
  expr : Text → Regs → World → ℕ
  expr_congr : ∀ {t : Text} {σ σ' : Regs} {w : World}, (∀ r ∈ readFamilies t, σ r = σ' r) →
    expr t σ w = expr t σ' w
  expr_literal : ∀ {t : Text} {σ : Regs} {w : World}, isImmediate t = true →
    expr t σ w = literal t
  expr_name : ∀ {t : Text} {fam : RegFamily} {σ : Regs} {w : World}, regFamily t = some fam →
    expr t σ w = σ.read t fam
  /-- What `reg OP= rhs;` leaves in the register. -/
  update : Text → Regs → World → ℕ
  update_congr : ∀ {t : Text} {σ σ' : Regs} {w : World}, (∀ r ∈ readFamilies t, σ r = σ' r) →
    update t σ w = update t σ' w
  pop : World → ℕ × World
  effect : Text → Regs → World → World
  effect_congr : ∀ {t : Text} {σ σ' : Regs} {w : World}, (∀ r ∈ readFamilies t, σ r = σ' r) →
    effect t σ w = effect t σ' w
  /-- What a callee leaves in a register that held a value, and what it does outside. -/
  call : Text → Regs → World → (RegFamily → ℕ → ℕ) × World
  call_congr : ∀ {t : Text} {σ σ' : Regs} {w : World}, (∀ r ∈ readFamilies t, σ r = σ' r) →
    (∀ r ∈ argRegs, σ r = σ' r) → call t σ w = call t σ' w
  /-- A call sets the result register. -/
  call_result : ∀ {t : Text} {σ : Regs} {w : World} (x y : ℕ),
    (call t σ w).1 .rax x = (call t σ w).1 .rax y
  unknown : Text → Regs × World → Regs × World

namespace Machine

variable (M : Machine)

def step (x : Regs × M.World) (s : Stmt) : Regs × M.World :=
  match s.act with
  | .skip => x
  | .assign name fam rhs => (x.1.write name fam (M.expr rhs x.1 x.2), x.2)
  | .update name fam => (x.1.write name fam (M.update s.text x.1 x.2), x.2)
  | .take name fam => (x.1.write name fam (M.pop x.2).1, (M.pop x.2).2)
  | .call => (fun f => if f ∈ callClobber then (M.call s.text x.1 x.2).1 f (x.1 f) else x.1 f,
      (M.call s.text x.1 x.2).2)
  | .effect => (x.1, M.effect s.text x.1 x.2)
  | .unknown => M.unknown s.text x

def run (x : Regs × M.World) (block : List Stmt) : Regs × M.World := block.foldl M.step x

end Machine

theorem isImmediate_regNames : ∀ n ∈ regNames, isImmediate n.toList = false := by decide +kernel

def plain : Machine where
  World := Unit
  expr := fun t σ _ =>
    match regFamily t with
    | some fam => σ.read t fam
    | none => if isImmediate t then literal t else 0
  expr_congr := by
    intro t σ σ' w h
    cases hfam : regFamily t with
    | none => rfl
    | some fam =>
      have hmem : fam ∈ readFamilies t := by
        rw [readFamilies_name hfam]
        exact List.mem_singleton_self fam
      show σ.read t fam = σ'.read t fam
      rw [Regs.read, Regs.read, h fam hmem]
  expr_literal := by
    intro t σ w h
    cases hfam : regFamily t with
    | none => exact if_pos h
    | some fam =>
      obtain ⟨n, hn, rfl⟩ := mem_regNames hfam
      rw [isImmediate_regNames n hn] at h
      cases h
  expr_name := by
    intro t fam σ w h
    rw [h]
  update := fun _ _ _ => 0
  update_congr := fun _ => rfl
  pop := fun _ => (0, ())
  effect := fun _ _ _ => ()
  effect_congr := fun _ => rfl
  call := fun _ _ _ => (fun _ _ => 0, ())
  call_congr := fun _ _ => rfl
  call_result := fun _ _ => rfl
  unknown := fun _ x => x

/-! ### What a parsed line is -/

/-- What `parseStmt` makes of a text. -/
inductive Shape (text : Text) : Stmt → Prop
  | comment : isComment text = true → Shape text (Stmt.kept text [] false .keep)
  | asm (reads : List RegFamily) : Shape text (Stmt.kept text reads false .opaqueAsm)
  | other {reads : List RegFamily} {isCall : Bool} : isComment text = false →
    (∀ r ∈ readFamilies text, r ∈ reads) → (isCall = true → ∀ r ∈ argRegs, r ∈ reads) →
    Shape text (Stmt.kept text reads isCall .keep)
  | compound {name : Text} {fam : RegFamily} {reads : List RegFamily} :
    regFamily name = some fam → (∀ r ∈ readFamilies text, r ∈ reads) → fam ∈ reads →
    Shape text ⟨text, .compound, some (name, fam), reads, none, false, false, 0⟩
  | assign {name : Text} {fam : RegFamily} (rhs : Text) (loads : Bool) :
    regFamily name = some fam → trim rhs = rhs →
    Shape text ⟨text, .assign, some (name, fam), readFamilies rhs, some rhs, loads, false, 0⟩
  | take {name : Text} {fam : RegFamily} (reads : List RegFamily) :
    regFamily name = some fam →
    Shape text ⟨text, .keep, some (name, fam), reads, none, false, false, 0⟩

theorem trim_trim (s : Text) : trim (trim s) = trim s := by
  have hlead : ∀ x : Text, trimStart (trimStart x) = trimStart x := fun x =>
    List.dropWhile_idempotent isSpace x
  have hend : ∀ x : Text, trimEnd (trimEnd x) = trimEnd x := fun x =>
    List.rdropWhile_idempotent isSpace x
  -- What is left after the end is trimmed starts as before, or is empty.
  have hstart : trimStart (trim s) = trim s := by
    have hprefix : trim s <+: trimStart s := List.rdropWhile_prefix isSpace (trimStart s)
    obtain ⟨rest, hrest⟩ := hprefix
    have hfix := hlead s
    cases htrim : trim s with
    | nil => rfl
    | cons c cs =>
      rw [htrim, List.cons_append] at hrest
      rw [← hrest] at hfix
      refine List.dropWhile_cons_of_neg fun hc => ?_
      have hlen := congrArg List.length hfix
      have hdrop : trimStart (c :: (cs ++ rest)) = trimStart (cs ++ rest) :=
        List.dropWhile_cons_of_pos hc
      have hle : (trimStart (cs ++ rest)).length ≤ (cs ++ rest).length :=
        (List.dropWhile_sublist _).length_le
      rw [hdrop, List.length_cons] at hlen
      omega
  rw [trim, hstart]
  exact hend _

theorem find_some {pat s : Text} {pos : ℕ} (h : find pat s = some pos) :
    s = s.take pos ++ (pat ++ s.drop (pos + pat.length)) := by
  induction s generalizing pos with
  | nil =>
    rw [find] at h
    split_ifs at h with hpat
    obtain rfl := List.isEmpty_iff.mp hpat
    obtain rfl := Option.some.inj h
    rfl
  | cons c cs ih =>
    rw [find] at h
    split_ifs at h with hpre
    · obtain rfl := Option.some.inj h
      obtain ⟨rest, hrest⟩ := List.isPrefixOf_iff_prefix.mp hpre
      rw [List.take_zero, List.nil_append, Nat.zero_add, ← hrest, List.drop_left]
    · obtain ⟨p, hp, rfl⟩ := Option.map_eq_some_iff.mp h
      have hrest := ih hp
      rw [List.take_succ_cons, List.cons_append, show p + 1 + pat.length = p + pat.length + 1 by
        omega, List.drop_succ_cons, ← hrest]

theorem stripSuffix_some {suffix s body : Text} (h : stripSuffix suffix s = some body) :
    s = body ++ suffix := by
  rw [stripSuffix] at h
  split_ifs at h with hsuffix
  obtain ⟨pre, rfl⟩ := List.isSuffixOf_iff_suffix.mp hsuffix
  obtain rfl := Option.some.inj h
  rw [List.length_append, Nat.add_sub_cancel, List.take_left]

theorem parseIncDec?_shape {text body : Text} {s : Stmt}
    (htext : identifiers text = identifiers body) (h : parseIncDec? text body = some s) :
    Shape text s := by
  rw [parseIncDec?] at h
  split at h
  · cases h
  · rename_i name hname
    obtain ⟨fam, hfam, rfl⟩ := Option.map_eq_some_iff.mp h
    have hbody : identifiers body = identifiers (trim name) := by
      rw [identifiers_trim]
      have hop : ∀ op : Text, op ≠ [] → (∀ c ∈ op, isWordByte c = false) → body = name ++ op →
          identifiers body = identifiers name := by
        intro op hne hop heq
        have happ := identifiers_op name [] hne hop
        rw [List.append_nil] at happ
        rw [heq, happ]
        exact List.append_nil _
      cases hinc : stripSuffix "++".toList body with
      | some n =>
        rw [hinc] at hname
        obtain rfl := Option.some.inj hname
        exact hop _ (by simp) (by simp [isWordByte]) (stripSuffix_some hinc)
      | none =>
        rw [hinc] at hname
        exact hop _ (by simp) (by simp [isWordByte]) (stripSuffix_some hname)
    refine .compound hfam (fun r hr => ?_) (List.mem_singleton_self fam)
    rw [← readFamilies_name hfam]
    exact (mem_readFamilies_congr (htext.trans hbody)).mp hr

theorem parseCompound?_shape {text body : Text} {s : Stmt} (hcomment : isComment text = false)
    (htext : identifiers text = identifiers body) (h : parseCompound? text body = some s) :
    Shape text s := by
  rw [parseCompound?] at h
  obtain ⟨op, hop, hs⟩ := List.exists_of_findSome?_eq_some h
  obtain ⟨pos, hpos, rfl⟩ := Option.map_eq_some_iff.mp hs
  have hword : ∀ op ∈ compoundOps, op.toList ≠ [] ∧ ∀ c ∈ op.toList, isWordByte c = false := by
    simp [compoundOps, isWordByte]
  have hsplit : identifiers body = identifiers (trim (body.take pos)) ++
      identifiers (trim (body.drop (pos + op.toList.length))) := by
    rw [identifiers_trim, identifiers_trim, ← identifiers_op _ _ (hword op hop).1 (hword op hop).2,
      ← find_some hpos]
  dsimp only
  split
  · rename_i fam hfam
    refine .compound hfam (fun r hr => ?_) List.mem_cons_self
    obtain ⟨w, hw, hwr⟩ := mem_readFamilies.mp ((mem_readFamilies_congr htext).mp hr)
    rw [hsplit, List.mem_append] at hw
    by_cases hrf : r = fam
    · exact List.mem_cons.mpr (.inl hrf)
    · refine List.mem_cons_of_mem _ (List.mem_filter.mpr ⟨?_, bne_iff_ne.mpr hrf⟩)
      rcases hw with hw | hw
      · have hmem := mem_readFamilies.mpr ⟨w, hw, hwr⟩
        rw [readFamilies_name hfam] at hmem
        exact absurd (List.mem_singleton.mp hmem) hrf
      · exact mem_readFamilies.mpr ⟨w, hw, hwr⟩
  · exact .other hcomment (fun r hr => (mem_readFamilies_congr htext).mp hr) nofun

theorem parseAssign?_shape {text body : Text} {s : Stmt} (hcomment : isComment text = false)
    (htext : identifiers text = identifiers body) (h : parseAssign? text body = some s) :
    Shape text s := by
  rw [parseAssign?] at h
  obtain ⟨pos, -, rfl⟩ := Option.map_eq_some_iff.mp h
  dsimp only
  split
  · rename_i fam hfam
    split_ifs
    · exact .take _ hfam
    · exact .assign _ _ hfam (trim_trim _)
  · exact .other hcomment (fun r hr => (mem_readFamilies_congr htext).mp hr) nofun

theorem parseStmt_shape (text : Text) : Shape text (parseStmt text) := by
  have htrim : ∀ {r}, r ∈ readFamilies text → r ∈ readFamilies (trim text) := fun hr =>
    (mem_readFamilies_congr (identifiers_trim text)).mpr hr
  rw [parseStmt]
  dsimp only
  split_ifs with hcomment hasm hstore
  · exact .comment hcomment
  · exact .asm _
  · exact .other (Bool.eq_false_iff.mpr hcomment) (fun r hr => htrim hr) nofun
  · have hcomment : isComment text = false := Bool.eq_false_iff.mpr hcomment
    have htext : identifiers text
        = identifiers ((stripSuffix [';'] (trim text)).getD (trim text)) := by
      rw [← identifiers_trim]
      cases hsemi : stripSuffix [';'] (trim text) with
      | none => rfl
      | some body =>
        have happ := identifiers_append body [] (show isWordByte ';' = false by rfl)
        rw [Option.getD_some, stripSuffix_some hsemi, happ]
        exact List.append_nil _
    generalize (stripSuffix [';'] (trim text)).getD (trim text) = body at htext ⊢
    cases hinc : parseIncDec? text body with
    | some s => exact parseIncDec?_shape htext hinc
    | none =>
      cases hcomp : parseCompound? text body with
      | some s => exact parseCompound?_shape hcomment htext hcomp
      | none =>
        cases hassign : parseAssign? text body with
        | some s => exact parseAssign?_shape hcomment htext hassign
        | none =>
          show Shape text (parseOther text body)
          have hreads : ∀ r ∈ readFamilies text, r ∈ readFamilies body := fun r hr =>
            (mem_readFamilies_congr htext).mp hr
          rw [parseOther]
          split_ifs
          · refine .other hcomment (fun r hr => List.mem_append_left _ (hreads r hr)) ?_
            intro _ r hr
            by_cases hmem : r ∈ readFamilies body
            · exact List.mem_append_left _ hmem
            · exact List.mem_append_right _ (List.mem_filter.mpr ⟨hr, decide_eq_true hmem⟩)
          · exact .other hcomment hreads nofun

theorem Shape.text_origin {text : Text} {s : Stmt} (h : Shape text s) :
    s.text = text ∧ s.origin = 0 := by
  cases h <;> exact ⟨rfl, rfl⟩

def Stmt.Parsed (s : Stmt) : Prop := s = { parseStmt s.text with origin := s.origin }

theorem Stmt.with_origin {p : Stmt} (h : p.origin = 0) : { p with origin := 0 } = p := by
  cases p
  subst h
  rfl

theorem Stmt.Parsed.shape {s : Stmt} (h : s.Parsed) : Shape s.text { s with origin := 0 } := by
  have hparse := parseStmt_shape s.text
  have heq : { s with origin := 0 } = parseStmt s.text :=
    (congrArg (fun t => { t with origin := 0 }) h).trans (Stmt.with_origin hparse.text_origin.2)
  rw [heq]
  exact hparse

theorem Stmt.Parsed.of_parse (text : Text) (o : ℕ) :
    Stmt.Parsed { parseStmt text with origin := o } := by
  have htext : (parseStmt text).text = text := (parseStmt_shape text).text_origin.1
  exact congrArg (fun t => { parseStmt t with origin := o }) htext.symm

theorem parsed_parseStmt (text : Text) : (parseStmt text).Parsed := by
  have h := Stmt.Parsed.of_parse text 0
  rwa [Stmt.with_origin (parseStmt_shape text).text_origin.2] at h

/-! ### The lines of a function -/

theorem mem_rewriteBlock {st : ConstState} {ss : List Stmt} {s : Stmt}
    (h : s ∈ rewriteBlock st ss) :
    ∃ s' ∈ ss, s.origin = s'.origin ∧ (s'.Parsed → s.Parsed) := by
  induction ss generalizing st with
  | nil => cases h
  | cons t ss ih =>
    rw [rewriteBlock] at h
    rcases List.mem_cons.mp h with rfl | h
    · refine ⟨t, List.mem_cons_self, ?_⟩
      split_ifs
      · exact ⟨rfl, id⟩
      · exact ⟨rfl, fun _ => .of_parse _ _⟩
    · obtain ⟨s', hs', hsame⟩ := ih h
      exact ⟨s', List.mem_cons_of_mem _ hs', hsame⟩

theorem mem_constPropagate {blocks : List BlockText} {succ : List (List ℕ)} {entry b : ℕ}
    {s : Stmt} (h : s ∈ (constPropagate (parsedBlocks blocks) succ entry).getD b []) :
    s.origin = b ∧ s.Parsed := by
  have hrewritten : ∃ st, s ∈ rewriteBlock st ((parsedBlocks blocks).getD b []) := by
    rw [constPropagate, List.getD_eq_getElem?_getD, List.getElem?_map] at h
    by_cases hb : b < (parsedBlocks blocks).length
    · rw [List.getElem?_range hb] at h
      exact ⟨_, h⟩
    · rw [List.getElem?_eq_none (by simpa using Nat.le_of_not_lt hb)] at h
      cases h
  obtain ⟨st, hs⟩ := hrewritten
  obtain ⟨s', hs', horigin, hparsed⟩ := mem_rewriteBlock hs
  rw [parsedBlocks, List.getD_eq_getElem?_getD, List.getElem?_mapIdx] at hs'
  cases hblock : blocks[b]? with
  | none =>
    rw [hblock] at hs'
    cases hs'
  | some block =>
    rw [hblock, Option.map_some, Option.getD_some] at hs'
    obtain ⟨line, -, rfl⟩ := List.mem_map.mp hs'
    exact ⟨horigin, hparsed (.of_parse line b)⟩

theorem length_constPropagate (blocks : List BlockText) (succ : List (List ℕ)) (entry : ℕ) :
    (constPropagate (parsedBlocks blocks) succ entry).length = blocks.length := by
  rw [constPropagate, List.length_map, List.length_range, parsedBlocks, List.length_mapIdx]

end Dataflow
end Aret
