/-
The text pipeline's cleanup of a function.

Constants are propagated over the whole function, registers that are live at the
end of a block are found, blocks joined by a lone edge are taken together, and
their lines are cleaned until nothing changes, at most four times.

Design notes: the loops of the code that run until nothing changes take a number
of rounds here, and give none when it is too small.  A hash map of registers is a
list of pairs, compared as the code compares maps.
-/
import Aret.Analysis
import Aret.LiftedText

namespace Aret
namespace Dataflow

/-! ### Constants -/

abbrev ConstState := List (Text × Text)

def clearFamily (state : ConstState) (name : Text) : ConstState :=
  match regFamily name with
  | none => state
  | some fam => state.filter fun kv => regFamily kv.1 != some fam

def ConstState.insert (state : ConstState) (name lit : Text) : ConstState :=
  state.filter (·.1 != name) ++ [(name, lit)]

def cpTransfer (state : ConstState) (s : Stmt) : ConstState :=
  let cleared (state : ConstState) : ConstState :=
    match s.write with
    | none => state
    | some (name, _) => clearFamily state name
  match s.kind with
  | .assign =>
    match s.write, s.rhs.map trim with
    | some (name, _), some r =>
      let state := clearFamily state name
      if isImmediate r then state.insert name r
      else if (regFamily r).isSome then
        match state.lookup r with
        | some v => state.insert name v
        | none => state
      else state
    | _, _ => cleared state
  | .compound => cleared state
  | .keep =>
    if s.isCall then
      cleared (state.filter fun kv => !(regFamily kv.1).any (· ∈ callClobber))
    else cleared state
  | .opaqueAsm => []

def cpMeet (a b : ConstState) : ConstState := a.filter fun kv => b.lookup kv.1 == some kv.2

def ConstState.same (a b : ConstState) : Bool :=
  a.length == b.length && a.all fun kv => b.lookup kv.1 == some kv.2

def substAll (state : ConstState) (s : Text) : Text :=
  state.foldl (fun out kv => replaceWord out kv.1 kv.2) s

def spacedOps : List String :=
  [" += ", " -= ", " *= ", " &= ", " |= ", " ^= ", " <<= ", " >>= "]

/-- `cp_subst`: uses are substituted, destinations are not. -/
def cpSubst (text : Text) (state : ConstState) : Text :=
  if state.isEmpty then text
  else if "//".toList.isPrefixOf (trimStart text) || (find "__asm__".toList text).isSome then text
  else
    match find " = ".toList text with
    | some p =>
      if "*(".toList.isPrefixOf (trimStart (text.take p)) then substAll state text
      else text.take (p + 3) ++ substAll state (text.drop (p + 3))
    | none =>
      match spacedOps.findSome? fun op => (find op.toList text).map (· + op.toList.length) with
      | some p => text.take p ++ substAll state (text.drop p)
      | none =>
        if "++;".toList.isSuffixOf (trimEnd text) || "--;".toList.isSuffixOf (trimEnd text) then text
        else substAll state text

/-- `preds`, one for each edge. -/
def predsOf (succ : List (List ℕ)) (t : ℕ) : List ℕ :=
  (List.range succ.length).flatMap fun i => ((succ.getD i []).filter (· == t)).map fun _ => i

/-- `out_state` and `in_state`. -/
structure ConstStates where
  outs : List (Option ConstState)
  ins : List ConstState

/-- What holds at the start of a block; predecessors without a state yet are left out. -/
def constIn (preds : ℕ → List ℕ) (entry : ℕ) (outs : List (Option ConstState)) (i : ℕ) :
    ConstState :=
  if i = entry then []
  else
    match (preds i).filterMap fun p => outs.getD p none with
    | [] => []
    | po :: rest => rest.foldl cpMeet po

def sweepBlock (stmts : List (List Stmt)) (preds : ℕ → List ℕ) (entry : ℕ)
    (st : ConstStates × Bool) (i : ℕ) : ConstStates × Bool :=
  let inb := constIn preds entry st.1.outs i
  let out := (stmts.getD i []).foldl cpTransfer inb
  let ins := st.1.ins.set i inb
  if (st.1.outs.getD i none).any (ConstState.same · out) then (⟨st.1.outs, ins⟩, st.2)
  else (⟨st.1.outs.set i (some out), ins⟩, true)

def constSweep (stmts : List (List Stmt)) (preds : ℕ → List ℕ) (entry : ℕ) (st : ConstStates) :
    ConstStates × Bool :=
  (List.range stmts.length).foldl (sweepBlock stmts preds entry) (st, false)

def constSweeps (stmts : List (List Stmt)) (preds : ℕ → List ℕ) (entry : ℕ) :
    ℕ → ConstStates → ConstStates
  | 0, st => st
  | guard + 1, st =>
    let r := constSweep stmts preds entry st
    if r.2 then constSweeps stmts preds entry guard r.1 else r.1

def rewriteBlock : ConstState → List Stmt → List Stmt
  | _, [] => []
  | st, s :: ss =>
    let new := cpSubst s.text st
    (if new = s.text then s else { parseStmt new with origin := s.origin })
      :: rewriteBlock (cpTransfer st s) ss

def constPropagate (stmts : List (List Stmt)) (succ : List (List ℕ)) (entry : ℕ) :
    List (List Stmt) :=
  let n := stmts.length
  let st := constSweeps stmts (predsOf succ) entry 200
    ⟨List.replicate n none, List.replicate n []⟩
  (List.range n).map fun i => rewriteBlock (st.ins.getD i []) (stmts.getD i [])

/-! ### Liveness -/

/-- What the pass takes from a block: its address, lifted lines and condition. -/
structure BlockText where
  start : ℕ
  lines : List Text
  cond : Option Text
  terminator : Flow
  successors : List ℕ

def BlockText.endUses (b : BlockText) : List RegFamily :=
  match b.terminator with
  | .condJump => (b.cond.map readFamilies).getD []
  | .ret => [.rax]
  | _ => []

/-- `keep_all`: what the block reads is unknown. -/
def BlockText.keepAll (b : BlockText) : Bool :=
  b.terminator == .indirect || b.terminator == .interrupt ||
    (b.lines.map parseStmt).any (·.kind == .opaqueAsm)

def Stmt.defs (s : Stmt) : List RegFamily :=
  if s.isCall then callKills else (s.write.map Prod.snd).toList

def consider (acc : Finset RegFamily × Finset RegFamily) (reads defs : List RegFamily) :
    Finset RegFamily × Finset RegFamily :=
  (acc.1 ∪ (reads.filter (· ∉ acc.2)).toFinset, acc.2 ∪ defs.toFinset)

/-- `use_b` and `def_b` of a block. -/
def useDef (keepAll : Bool) (stmts : List Stmt) (endUses : List RegFamily) :
    Finset RegFamily × Finset RegFamily :=
  if keepAll then (allFamilies, ∅)
  else consider (stmts.foldl (fun acc s => consider acc s.reads s.defs) (∅, ∅)) endUses []

/-- `live_in` and `live_out`. -/
structure Liveness where
  ins : List (Finset RegFamily)
  outs : List (Finset RegFamily)

section
variable (useDefs : List (Finset RegFamily × Finset RegFamily)) (succ : List (List ℕ))

def liveBlock (st : Liveness × Bool) (i : ℕ) : Liveness × Bool :=
  let out := (succ.getD i []).foldl (fun acc s => acc ∪ st.1.ins.getD s ∅) ∅
  let ud := useDefs.getD i (∅, ∅)
  let lin := ud.1 ∪ (out \ ud.2)
  if out ≠ st.1.outs.getD i ∅ ∨ lin ≠ st.1.ins.getD i ∅ then
    (⟨st.1.ins.set i lin, st.1.outs.set i out⟩, true)
  else st

def liveSweep (st : Liveness) : Liveness × Bool :=
  (List.range useDefs.length).reverse.foldl (liveBlock useDefs succ) (st, false)

def liveSweeps? : ℕ → Liveness → Option Liveness
  | 0, _ => none
  | rounds + 1, st =>
    let r := liveSweep useDefs succ st
    if r.2 then liveSweeps? rounds r.1 else some r.1

def liveness? (rounds : ℕ) : Option Liveness :=
  let n := useDefs.length
  liveSweeps? useDefs succ rounds ⟨List.replicate n ∅, List.replicate n ∅⟩

end

/-! ### Chains -/

section
variable (succ : List (List ℕ)) (keepAll : ℕ → Bool)

/-- `mergeable`: the block that is cleaned together with `b`, right after it. -/
def mergeable (b : ℕ) : Option ℕ :=
  if keepAll b then none
  else
    match succ.getD b [] with
    | [u] => if u ≠ b && succ.flatten.count u == 1 && !keepAll u then some u else none
    | _ => none

/-- `grow`, after `cur`: the blocks taken next, and all those covered then. -/
def growFrom : ℕ → ℕ → List ℕ → List ℕ × List ℕ
  | 0, _, covered => ([], covered)
  | fuel + 1, cur, covered =>
    match mergeable succ keepAll cur with
    | none => ([], covered)
    | some u =>
      if u ∈ covered then ([], covered)
      else
        let r := growFrom fuel u (u :: covered)
        (u :: r.1, r.2)

/-- `grow`: a chain that starts with `i`. -/
def grow (i : ℕ) (covered : List ℕ) : List ℕ × List ℕ :=
  let r := growFrom succ keepAll succ.length i (i :: covered)
  (i :: r.1, r.2)

def isContinuation (i : ℕ) : Bool :=
  (List.range succ.length).any fun b => mergeable succ keepAll b == some i

def seed (heads : ℕ → Bool) (st : List (List ℕ) × List ℕ) (i : ℕ) : List (List ℕ) × List ℕ :=
  if heads i && i ∉ st.2 then
    let r := grow succ keepAll i st.2
    (st.1 ++ [r.1], r.2)
  else st

/-- `chains`: from heads first, then from blocks on cycles without one. -/
def chains : List (List ℕ) :=
  let blocks := List.range succ.length
  let first := blocks.foldl (seed succ keepAll fun i => !isContinuation succ keepAll i) ([], [])
  (blocks.foldl (seed succ keepAll fun _ => true) first).1

end

/-! ### Cleaning a chain -/

/-- What `dce` knows of a line, given what is live after it: whether it goes, and what is
live before it. -/
def dceStmt (s : Stmt) (live : Finset RegFamily) : Bool × Finset RegFamily :=
  match s.kind with
  | .assign | .compound =>
    match s.write with
    | none => (false, live ∪ s.reads.toFinset)
    | some (_, fam) =>
      if fam ∉ live then (true, live)
      else (false, (if s.kind = .assign then live.erase fam else live) ∪ s.reads.toFinset)
  | .keep => (false, (if s.isCall then live \ callKills.toFinset else live) ∪ s.reads.toFinset)
  | .opaqueAsm => (false, live ∪ s.reads.toFinset)

/-- `remove`, from the last line to the first, and what is live before them. -/
def dceMarks (block : List Stmt) (liveOut : Finset RegFamily) : List Bool × Finset RegFamily :=
  block.foldr (fun s acc => let r := dceStmt s acc.2; (r.1 :: acc.1, r.2)) ([], liveOut)

/-- `retain`, of what is not marked. -/
def retain {α : Type} (xs : List α) (remove : List Bool) : List α :=
  (xs.zip remove).filterMap fun x => if x.2 then none else some x.1

/-- `dce`, with whether anything changed. -/
def dce (block : List Stmt) (liveOut : Finset RegFamily) : List Stmt × Bool :=
  let remove := (dceMarks block liveOut).1
  (retain block remove, remove.any id)

/-- The uses of `name` in the lines until its value ends: the first line that has one, counted
from `j`, and how many there are. -/
def scanUses (name : Text) (fam : RegFamily) : ℕ → List Stmt → Option ℕ × ℕ
  | _, [] => (none, 0)
  | j, s :: rest =>
    let here := countWord s.text name
    let after :=
      if (s.write.any fun w => w.2 == fam) || (s.isCall && fam ∈ callKills) then (none, 0)
      else scanUses name fam (j + 1) rest
    (if 0 < here then some j else after.1, here + after.2)

/-- Whether a line between a definition and its use may change what is inlined. -/
def isHazard (sources : List RegFamily) (loadsMem : Bool) (s : Stmt) : Bool :=
  s.isCall || s.kind == .opaqueAsm || (s.write.any fun w => w.2 ∈ sources) ||
    (loadsMem && "*(".toList.isPrefixOf (trimStart s.text))

/-- The line into which the definition at `i` may go, and the text that it becomes. -/
def inlineAt? (block : List Stmt) (liveOut : Finset RegFamily) (i : ℕ) : Option (ℕ × Text) :=
  match block[i]? with
  | none => none
  | some s =>
    match s.kind, s.write, s.rhs with
    | .assign, some (name, fam), some rhs =>
      if fam ∈ liveOut then none
      else
        match scanUses name fam (i + 1) (block.drop (i + 1)) with
        | (some p, 1) =>
          if ((block.take p).drop (i + 1)).any (isHazard s.reads s.rhsLoadsMem) then none
          else
            let repl := if needsParens rhs then ['('] ++ rhs ++ [')'] else rhs
            block[p]?.map fun t => (p, replaceWord t.text name repl)
        | _ => none
    | _, _, _ => none

def inline? (block : List Stmt) (liveOut : Finset RegFamily) : Option (ℕ × ℕ × Text) :=
  (List.range block.length).findSome? fun i => (inlineAt? block liveOut i).map (i, ·)

/-- `propagate`, with whether anything changed. -/
def propagate (block : List Stmt) (liveOut : Finset RegFamily) : List Stmt × Bool :=
  match inline? block liveOut with
  | none => (block, false)
  | some (i, p, text) => ((block.set p (parseStmt text)).eraseIdx i, true)

def cleanChain (liveOut : Finset RegFamily) : ℕ → List Stmt → List Stmt
  | 0, block => block
  | k + 1, block =>
    let a := dce block liveOut
    let b := propagate a.1 liveOut
    if !a.2 && !b.2 then b.1 else cleanChain liveOut k b.1

/-! ### Results of calls -/

def isVoidCallLine (line : Text) : Bool :=
  let t := trim line
  ");".toList.isSuffixOf t &&
    match find ['('] t with
    | none | some 0 => false
    | some p =>
      (t.take p).all isWordByte && !(["if", "while", "for", "switch", "return", "sizeof", "push",
        "__asm__"].any (·.toList == t.take p))

def lineWritesRax (line : Text) : Bool :=
  match find " = ".toList (trim line) with
  | none => false
  | some pos => regFamily (trim ((trim line).take pos)) == some .rax

/-- One line of `bind_call_results`, with whether `rax` is live before it. -/
def bindLine (retreg line : Text) (live : Bool) : Text × Bool :=
  let readsRax := decide (.rax ∈ readFamilies line)
  if isVoidCallLine line then
    (if live then line.takeWhile (· == ' ') ++ retreg ++ " = ".toList ++ trimStart line else line,
      readsRax)
  else (line, readsRax || (live && !lineWritesRax line))

/-- `bind_call_results`, from the last line to the first. -/
def bindCallResults (retreg : Text) (lines : List Text) (liveOut : Finset RegFamily) : List Text :=
  (lines.foldr (fun line acc => let r := bindLine retreg line acc.2; (r.1 :: acc.1, r.2))
    ([], decide (.rax ∈ liveOut))).1

/-! ### A function -/

/-- `FunctionCode`: the lines and the condition at each address. -/
abbrev FunctionCode := List (ℕ × List Text × Option Text)

def FunctionCode.insert (code : FunctionCode) (a : ℕ) (v : List Text × Option Text) :
    FunctionCode :=
  code.filter (·.1 != a) ++ [(a, v)]

/-- `per_block`: each line under the block that it is tagged with. -/
def perBlock (lines : List (Text × ℕ)) : ℕ → List Text :=
  lines.foldl (fun m x => Function.update m x.2 (m x.2 ++ [x.1])) fun _ => []

/-- What is known of a function when its chains are cleaned. -/
structure Prepared where
  blocks : List BlockText
  succ : List (List ℕ)
  stmts : List (List Stmt)
  live : Liveness
  bits64 : Bool

namespace Prepared

variable (f : Prepared)

def block (i : ℕ) : BlockText := f.blocks.getD i ⟨0, [], none, .fallthrough, []⟩

def keepAll (i : ℕ) : Bool := (f.block i).keepAll

def liveAfter (chain : List ℕ) : Finset RegFamily :=
  let last := chain.getLastD 0
  f.live.outs.getD last ∅ ∪ (f.block last).endUses.toFinset

def cleaned (chain : List ℕ) : List Stmt :=
  let block := chain.flatMap fun b => f.stmts.getD b []
  if chain.any f.keepAll then block else cleanChain (f.liveAfter chain) 4 block

def chainLines (chain : List ℕ) : List (Text × ℕ) :=
  let block := f.cleaned chain
  let retreg := if f.bits64 then "rax".toList else "eax".toList
  (bindCallResults retreg (block.map Stmt.text) (f.liveAfter chain)).zip (block.map Stmt.origin)

def addChain (code : FunctionCode) (chain : List ℕ) : FunctionCode :=
  let per := perBlock (f.chainLines chain)
  chain.foldl (fun code b => code.insert (f.block b).start (per b, (f.block b).cond)) code

def code : FunctionCode := (chains f.succ f.keepAll).foldl f.addChain []

end Prepared

def parsedBlocks (blocks : List BlockText) : List (List Stmt) :=
  blocks.mapIdx fun i b => b.lines.map fun s => { parseStmt s with origin := i }

def blockEdges (blocks : List BlockText) : List (List ℕ) :=
  blocks.map fun b => b.successors.filterMap fun t => blocks.findIdx? (·.start == t)

def prepare? (rounds : ℕ) (bits64 : Bool) (entry : ℕ) (blocks : List BlockText) :
    Option Prepared :=
  let succ := blockEdges blocks
  let start := (blocks.findIdx? (·.start == entry)).getD 0
  let stmts := constPropagate (parsedBlocks blocks) succ start
  let useDefs := (blocks.zip stmts).map fun x => useDef x.1.keepAll x.2 x.1.endUses
  (liveness? useDefs succ rounds).map fun live => ⟨blocks, succ, stmts, live, bits64⟩

def optimizeFunction? (rounds : ℕ) (bits64 : Bool) (entry : ℕ) (blocks : List BlockText) :
    Option FunctionCode :=
  (prepare? rounds bits64 entry blocks).map Prepared.code

end Dataflow
end Aret
