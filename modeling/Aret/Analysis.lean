/-
Recovery of one function's control flow graph from the decoded instructions.

`collectFunction` walks the intra-function edges over the global instruction map,
`buildFunction` rewrites proven `ret`-as-jump instructions, pulls stolen epilogues
back in and cuts what was collected into basic blocks.

Design notes: a `BTreeMap` of instructions is the list of them in address order.
The pass that finds `ret`-as-jump instructions is a parameter.
-/
import Aret.Ir
import Mathlib.Data.List.Sort

namespace Aret

/-- How an instruction passes control on. -/
inductive Flow where
  | fallthrough | jump | condJump | call | indirect | ret | interrupt
  deriving DecidableEq, Repr

def Flow.terminates : Flow → Bool
  | .fallthrough | .call => false
  | _ => true

/-- What the builder asks of a raw instruction: its condition (`cc_to_cond`), the
index of its jump table (`switch_index`), its register operand, and so on. -/
structure RawInsn where
  isRet : Bool
  cond : Expr
  switchIndex : Option Expr
  op0Register : Option ℕ
  ipRelMemory : Option ℕ
  memIndirectTarget : Option Expr
  isMovsxd : Bool
  memIndex : Option ℕ
  memScale : ℕ
  deriving DecidableEq

structure Insn where
  address : ℕ
  len : ℕ
  text : String
  flow : Flow
  target : Option ℕ
  callName : Option String
  raw : RawInsn
  deriving DecidableEq

namespace Insn

def nextAddr (i : Insn) : ℕ := i.address + i.len

end Insn

/-- A map of decoded instructions, each under its own address. -/
structure InsnMap where
  insns : List Insn
  sorted : insns.Pairwise (·.address < ·.address)

namespace InsnMap

def get (m : InsnMap) (a : ℕ) : Option Insn := m.insns.find? (·.address == a)

theorem address_of_get {m : InsnMap} {a : ℕ} {i : Insn} (h : m.get a = some i) :
    i.address = a := by
  simpa using List.find?_some h

theorem mem_of_get {m : InsnMap} {a : ℕ} {i : Insn} (h : m.get a = some i) : i ∈ m.insns :=
  List.mem_of_find?_eq_some h

end InsnMap

/-- A maximal straight-line run of instructions. -/
structure BasicBlock where
  start : ℕ
  insns : List Insn
  successors : List ℕ
  terminator : Flow
  deriving DecidableEq

/-- A recovered function: its blocks in address order. -/
structure Function where
  entry : ℕ
  name : String
  blocks : List BasicBlock
  callees : List ℕ

abbrev JumpTables := ℕ → Option (List ℕ)

/-! ### Collecting the instructions -/

/-- Whether the map has an instruction at `a`. -/
def hasInsn (insns : List Insn) (a : ℕ) : Bool := insns.any (·.address == a)

/-- `BTreeMap::insert`. -/
def insertInsn (i : Insn) : List Insn → List Insn
  | [] => [i]
  | j :: js =>
    if i.address < j.address then i :: j :: js
    else if i.address = j.address then i :: js
    else j :: insertInsn i js

/-- Where the walk goes on from an instruction, and whether by falling through. -/
def walkEdges (jumpTables : JumpTables) (i : Insn) : List (ℕ × Bool) :=
  match i.flow with
  | .fallthrough => [(i.nextAddr, true)]
  | .condJump => i.target.toList.map (·, false) ++ [(i.nextAddr, true)]
  | .call => [(i.nextAddr, false)]
  | .jump => i.target.toList.map (·, false)
  | .indirect => ((jumpTables i.address).getD []).map (·, false)
  | .ret | .interrupt => []

section
variable (global : InsnMap) (entry : ℕ) (boundary : ℕ → Bool) (jumpTables : JumpTables)
  (prologueOnly : ℕ → Bool)

/-- The work list of `collect_function`, for at most `fuel` items. -/
def collectLoop : ℕ → List (ℕ × Bool) → List Insn → Option (List Insn)
  | _, [], insns => some insns
  | 0, _ :: _, _ => none
  | fuel + 1, (addr, fell) :: work, insns =>
    if hasInsn insns addr then collectLoop fuel work insns
    else if addr ≠ entry ∧ boundary addr ∧ !(fell && prologueOnly addr) then
      collectLoop fuel work insns
    else
      match global.get addr with
      | none => collectLoop fuel work insns
      | some i => collectLoop fuel (work ++ walkEdges jumpTables i) (insertInsn i insns)

/-- The number of edges of the instructions in `all` that are not collected yet. -/
def edgesLeft (all insns : List Insn) : ℕ :=
  ((all.filter fun i => !hasInsn insns i.address).map
    fun i => (walkEdges jumpTables i).length).sum

def collectFunction : List Insn :=
  (collectLoop global entry boundary jumpTables prologueOnly
    (1 + edgesLeft jumpTables global.insns []) [(entry, false)] []).getD []

end

theorem hasInsn_iff {insns : List Insn} {a : ℕ} :
    hasInsn insns a = true ↔ ∃ i ∈ insns, i.address = a := by
  simp [hasInsn]

theorem mem_insertInsn {i j : Insn} {insns : List Insn} (h : j ∈ insertInsn i insns) :
    j = i ∨ j ∈ insns := by
  induction insns with
  | nil => exact .inl (List.mem_singleton.mp h)
  | cons k ks ih =>
    rw [insertInsn] at h
    split_ifs at h with h1 h2
    · exact List.mem_cons.mp h
    · rcases List.mem_cons.mp h with h | h
      · exact .inl h
      · exact .inr (List.mem_cons_of_mem k h)
    · rcases List.mem_cons.mp h with h | h
      · exact .inr (h ▸ List.mem_cons_self)
      · exact (ih h).imp_right (List.mem_cons_of_mem k)

theorem hasInsn_insertInsn {i : Insn} {insns : List Insn} {a : ℕ} :
    hasInsn (insertInsn i insns) a = (i.address == a || hasInsn insns a) := by
  induction insns with
  | nil => simp [hasInsn, insertInsn]
  | cons j js ih =>
    rw [insertInsn]
    split_ifs with h1 h2
    · simp [hasInsn]
    · simp only [hasInsn, List.any_cons] at ih ⊢
      rw [h2]
      cases j.address == a <;> simp
    · simp only [hasInsn, List.any_cons] at ih ⊢
      rw [ih]
      cases j.address == a <;> cases i.address == a <;> simp

theorem sorted_insertInsn {i : Insn} {insns : List Insn}
    (h : insns.Pairwise (·.address < ·.address)) :
    (insertInsn i insns).Pairwise (·.address < ·.address) := by
  induction insns with
  | nil => simp [insertInsn]
  | cons j js ih =>
    obtain ⟨hj, hjs⟩ := List.pairwise_cons.mp h
    rw [insertInsn]
    split_ifs with h1 h2
    · refine List.pairwise_cons.mpr ⟨fun k hk => ?_, h⟩
      rcases List.mem_cons.mp hk with rfl | hk
      · exact h1
      · exact h1.trans (hj k hk)
    · exact List.pairwise_cons.mpr ⟨fun k hk => h2 ▸ hj k hk, hjs⟩
    · refine List.pairwise_cons.mpr ⟨fun k hk => ?_, ih hjs⟩
      rcases mem_insertInsn hk with rfl | hk
      · omega
      · exact hj k hk

section
variable {global : InsnMap} {entry : ℕ} {boundary : ℕ → Bool} {jumpTables : JumpTables}
  {prologueOnly : ℕ → Bool}

private theorem edgesLeft_cons (j : Insn) (all insns : List Insn) :
    edgesLeft jumpTables (j :: all) insns
      = (if hasInsn insns j.address then 0 else (walkEdges jumpTables j).length)
        + edgesLeft jumpTables all insns := by
  cases h : hasInsn insns j.address <;> simp [edgesLeft, h]

private theorem edgesLeft_insertInsn_le (i : Insn) (all insns : List Insn) :
    edgesLeft jumpTables all (insertInsn i insns) ≤ edgesLeft jumpTables all insns := by
  induction all with
  | nil => simp [edgesLeft]
  | cons j all ih =>
    rw [edgesLeft_cons, edgesLeft_cons, hasInsn_insertInsn]
    cases i.address == j.address <;> cases hasInsn insns j.address <;> simp <;> omega

private theorem edgesLeft_insertInsn {i : Insn} {all insns : List Insn} (hi : i ∈ all)
    (hnew : hasInsn insns i.address = false) :
    edgesLeft jumpTables all (insertInsn i insns) + (walkEdges jumpTables i).length
      ≤ edgesLeft jumpTables all insns := by
  induction all with
  | nil => cases hi
  | cons j all ih =>
    rw [edgesLeft_cons, edgesLeft_cons, hasInsn_insertInsn]
    rcases List.mem_cons.mp hi with rfl | hi
    · have hle : edgesLeft jumpTables all (insertInsn i insns) ≤ edgesLeft jumpTables all insns :=
        edgesLeft_insertInsn_le i all insns
      simp [hnew]
      omega
    · have hle := ih hi
      cases i.address == j.address <;> cases hasInsn insns j.address <;> simp <;> omega

theorem collectLoop_isSome {fuel : ℕ} {work : List (ℕ × Bool)} {insns : List Insn}
    (h : work.length + edgesLeft jumpTables global.insns insns ≤ fuel) :
    (collectLoop global entry boundary jumpTables prologueOnly fuel work insns).isSome := by
  induction fuel generalizing work insns with
  | zero =>
    cases work with
    | nil => simp [collectLoop]
    | cons w work => simp at h
  | succ fuel ih =>
    cases work with
    | nil => simp [collectLoop]
    | cons w work =>
      obtain ⟨addr, fell⟩ := w
      rw [List.length_cons] at h
      rw [collectLoop]
      split_ifs with h1 h2
      · exact ih (by omega)
      · exact ih (by omega)
      · rcases hg : global.get addr with _ | i
        · exact ih (by omega)
        · have haddr := InsnMap.address_of_get hg
          have hnew : hasInsn insns i.address = false := by simpa [haddr] using h1
          have hleft : _ ≤ edgesLeft jumpTables global.insns insns :=
            edgesLeft_insertInsn (InsnMap.mem_of_get hg) hnew
          refine ih ?_
          rw [List.length_append]
          omega

theorem sorted_collectLoop {fuel : ℕ} {work : List (ℕ × Bool)} {insns out : List Insn}
    (hs : insns.Pairwise (·.address < ·.address))
    (h : collectLoop global entry boundary jumpTables prologueOnly fuel work insns = some out) :
    out.Pairwise (·.address < ·.address) := by
  induction fuel generalizing work insns with
  | zero =>
    cases work with
    | nil => exact Option.some.inj (by simpa [collectLoop] using h) ▸ hs
    | cons w work => simp [collectLoop] at h
  | succ fuel ih =>
    cases work with
    | nil => exact Option.some.inj (by simpa [collectLoop] using h) ▸ hs
    | cons w work =>
      rw [collectLoop] at h
      split_ifs at h with h1 h2
      · exact ih hs h
      · exact ih hs h
      · rcases hg : global.get w.1 with _ | i
        · rw [hg] at h
          exact ih hs h
        · rw [hg] at h
          exact ih (sorted_insertInsn hs) h

theorem sorted_collectFunction :
    (collectFunction global entry boundary jumpTables prologueOnly).Pairwise
      (·.address < ·.address) := by
  have hsome : (collectLoop global entry boundary jumpTables prologueOnly
      (1 + edgesLeft jumpTables global.insns []) [(entry, false)] []).isSome :=
    collectLoop_isSome le_rfl
  obtain ⟨out, hout⟩ := Option.isSome_iff_exists.mp hsome
  have hcollect : collectFunction global entry boundary jumpTables prologueOnly = out := by
    rw [collectFunction]
    exact congrArg (Option.getD · []) hout
  rw [hcollect]
  exact sorted_collectLoop List.Pairwise.nil hout

end

/-! ### Cutting into blocks -/

/-- The successor addresses of a block that ends in `last`, before jump tables. -/
def flowSuccessors (last : Insn) : List ℕ :=
  match last.flow with
  | .condJump => last.target.toList ++ [last.nextAddr]
  | .jump => last.target.toList
  | .ret | .indirect | .interrupt => []
  | .fallthrough | .call => [last.nextAddr]

/-- The block of a run of instructions that starts at `start`; none of an empty
run. -/
def flush (start : ℕ) (body : List Insn) : List BasicBlock :=
  match body.getLast? with
  | none => []
  | some last => [⟨start, body, flowSuccessors last, last.flow⟩]

/-- Cut the instructions into blocks: one ends at a terminating instruction and
before a leader.  `curStart` and `cur` are the block under way. -/
def splitBlocks (leader : ℕ → Bool) : Option ℕ → List Insn → List Insn → List BasicBlock
  | none, _, [] => []
  | some start, cur, [] => flush start cur
  | curStart, cur, i :: rest =>
    let cut := leader i.address && curStart.isSome
    let before := if cut then flush (curStart.getD i.address) cur else []
    let start := if cut then i.address else curStart.getD i.address
    let cur := if cut then [i] else cur ++ [i]
    if i.flow.terminates || (rest.head?.all fun n => leader n.address) then
      before ++ flush start cur ++ splitBlocks leader none [] rest
    else before ++ splitBlocks leader (some start) cur rest

def leadersOf (jumpTables : JumpTables) (insns : List Insn) (i : Insn) : List ℕ :=
  let next := [i.nextAddr].filter (hasInsn insns)
  match i.flow with
  | .condJump | .jump => i.target.toList.filter (hasInsn insns) ++ next
  | .ret | .indirect | .interrupt =>
    next ++ ((jumpTables i.address).getD []).filter (hasInsn insns)
  | .fallthrough | .call => []

def leaders (jumpTables : JumpTables) (entry : ℕ) (insns : List Insn) : List ℕ :=
  entry :: insns.flatMap (leadersOf jumpTables insns)

def attachTables (jumpTables : JumpTables) (insns : List Insn) (b : BasicBlock) : BasicBlock :=
  match b.terminator, b.insns.getLast?.bind fun i => jumpTables i.address with
  | .indirect, some targets => { b with successors := targets.filter (hasInsn insns) }
  | _, _ => b

section
variable (symbolName : ℕ → Option String)
  (findRetJumps : List Insn → InsnMap → ℕ → List (ℕ × ℕ))
  (global : InsnMap) (entry : ℕ) (allEntries : ℕ → Bool) (jumpTables : JumpTables)
  (prologueOnly : ℕ → Bool)

/-- Rewrite one `ret` at `ra` into a jump to `tgt`, and collect the continuation. -/
def rewriteRet (boundary : ℕ → Bool) (insns : List Insn) (rj : ℕ × ℕ) : List Insn :=
  let insns := insns.map fun i =>
    if i.address = rj.1 then { i with flow := .jump, target := some rj.2 } else i
  if hasInsn insns rj.2 then insns
  else
    (collectFunction global rj.2 boundary jumpTables prologueOnly).foldl
      (fun m i => if hasInsn m i.address then m else insertInsn i m) insns

def stolenEpilogues (boundary : ℕ → Bool) (insns : List Insn) : List Insn :=
  (((insns.filter (·.flow == .call)).map Insn.nextAddr).filter fun ft =>
      !hasInsn insns ft && boundary ft).filterMap fun ft =>
    (global.get ft).filter (·.flow == .ret)

def functionInsns : List Insn :=
  let boundary := fun a => allEntries a && a != entry
  let insns := collectFunction global entry boundary jumpTables prologueOnly
  let insns := (findRetJumps insns global entry).foldl
    (rewriteRet global jumpTables prologueOnly boundary) insns
  (stolenEpilogues global boundary insns).foldl (fun m i => insertInsn i m) insns

def buildFunction : Option Function :=
  let boundary := fun a => allEntries a && a != entry
  if collectFunction global entry boundary jumpTables prologueOnly = [] then none
  else
    let insns := functionInsns findRetJumps global entry allEntries jumpTables prologueOnly
    some {
      entry := entry
      name := (symbolName entry).getD ("sub_".append (String.ofList (Nat.toDigits 16 entry)))
      blocks := (splitBlocks (leaders jumpTables entry insns).contains none [] insns).map
        (attachTables jumpTables insns)
      callees := ((insns.filter (·.flow == .call)).filterMap Insn.target).dedup.insertionSort
        (· ≤ ·) }

end

/-! ### What a recovered function satisfies -/

def BasicBlock.Cut (b : BasicBlock) : Prop :=
  b.insns.head?.map Insn.address = some b.start ∧
    ∃ last, b.insns.getLast? = some last ∧ b.terminator = last.flow ∧
      b.successors = flowSuccessors last

/-- The block under way is empty, or starts at `curStart`. -/
private def Underway (curStart : Option ℕ) (cur : List Insn) : Prop :=
  cur.head?.map Insn.address = curStart

private theorem flush_spec {start : ℕ} {body : List Insn}
    (h : body.head?.map Insn.address = some start) :
    (flush start body).flatMap BasicBlock.insns = body ∧
      (∀ b ∈ flush start body, b.Cut) ∧ ∃ b ∈ flush start body, b.start = start := by
  obtain ⟨first, rest, rfl⟩ : ∃ first rest, body = first :: rest := by
    cases body with
    | nil => cases h
    | cons first rest => exact ⟨first, rest, rfl⟩
  obtain ⟨last, hlast⟩ := Option.isSome_iff_exists.mp
    (show ((first :: rest).getLast?).isSome by simp)
  rw [flush, hlast]
  refine ⟨by simp, fun b hb => ?_, _, List.mem_singleton_self _, rfl⟩
  rw [List.mem_singleton.mp hb]
  exact ⟨h, last, hlast, rfl, rfl⟩

private theorem underway_nil : Underway none [] := rfl

private theorem underway_snoc {curStart : Option ℕ} {cur : List Insn} (h : Underway curStart cur)
    (i : Insn) : (cur ++ [i]).head?.map Insn.address = some (curStart.getD i.address) := by
  have h' : curStart = cur.head?.map Insn.address := h.symm
  subst h'
  cases cur <;> simp

private theorem splitBlocks_cut {leader : ℕ → Bool} {i : Insn} (hi : leader i.address = true)
    (start : ℕ) (cur rest : List Insn) :
    splitBlocks leader (some start) cur (i :: rest)
      = flush start cur ++ splitBlocks leader none [] (i :: rest) := by
  rw [splitBlocks, splitBlocks]
  simp only [hi, Option.isSome_some, Option.isSome_none, Bool.and_true, Bool.and_false,
    if_true, Option.getD_some, Option.getD_none, List.nil_append]
  split <;> simp

private theorem splitBlocks_join {leader : ℕ → Bool} {curStart : Option ℕ} {i : Insn}
    (hi : leader i.address = false ∨ curStart = none) (cur rest : List Insn) :
    splitBlocks leader curStart cur (i :: rest)
      = if i.flow.terminates || (rest.head?.all fun n => leader n.address) then
          flush (curStart.getD i.address) (cur ++ [i]) ++ splitBlocks leader none [] rest
        else splitBlocks leader (some (curStart.getD i.address)) (cur ++ [i]) rest := by
  have hcut : (leader i.address && curStart.isSome) = false := by
    rcases hi with hi | hi <;> simp [hi]
  rw [splitBlocks]
  simp only [hcut]
  simp

theorem splitBlocks_spec (leader : ℕ → Bool) (rest : List Insn) {curStart : Option ℕ}
    {cur : List Insn}
    (h : Underway curStart cur) :
    (splitBlocks leader curStart cur rest).flatMap BasicBlock.insns = cur ++ rest ∧
      (∀ b ∈ splitBlocks leader curStart cur rest, b.Cut) ∧
      (∀ s, curStart = some s → ∃ b ∈ splitBlocks leader curStart cur rest, b.start = s) ∧
      ∀ i ∈ rest, leader i.address = true →
        ∃ b ∈ splitBlocks leader curStart cur rest, b.start = i.address := by
  induction rest generalizing curStart cur with
  | nil =>
    cases curStart with
    | none =>
      have hcur : cur = [] := by simpa [Underway] using h
      simp [splitBlocks, hcur]
    | some start =>
      obtain ⟨hins, hcut, hstart⟩ := flush_spec h
      refine ⟨by simpa [splitBlocks] using hins, by simpa [splitBlocks] using hcut, ?_, by simp⟩
      rintro s hs
      rw [← Option.some.inj hs]
      simpa [splitBlocks] using hstart
  | cons i rest ih =>
    -- joining the block under way, which may be a new one
    have hjoin : ∀ {curStart cur}, Underway curStart cur →
        (leader i.address = false ∨ curStart = none) →
        (splitBlocks leader curStart cur (i :: rest)).flatMap BasicBlock.insns
            = cur ++ i :: rest ∧
          (∀ b ∈ splitBlocks leader curStart cur (i :: rest), b.Cut) ∧
          (∃ b ∈ splitBlocks leader curStart cur (i :: rest),
            b.start = curStart.getD i.address) ∧
          ∀ k ∈ rest, leader k.address = true →
            ∃ b ∈ splitBlocks leader curStart cur (i :: rest), b.start = k.address := by
      intro curStart cur hcur hi
      have hsnoc := underway_snoc hcur i
      rw [splitBlocks_join hi]
      split_ifs with hend
      · obtain ⟨hins, hcut, b, hb, hbs⟩ := flush_spec hsnoc
        obtain ⟨hins', hcut', -, hlead⟩ := ih underway_nil
        refine ⟨by simp [hins, hins'], fun c hc => ?_, ?_, fun k hk hkl => ?_⟩
        · exact (List.mem_append.mp hc).elim (hcut c) (hcut' c)
        · exact ⟨b, List.mem_append_left _ hb, hbs⟩
        · obtain ⟨c, hc, hcs⟩ := hlead k hk hkl
          exact ⟨c, List.mem_append_right _ hc, hcs⟩
      · obtain ⟨hins, hcut, hstart, hlead⟩ := ih hsnoc
        exact ⟨by simp [hins], hcut, hstart _ rfl, hlead⟩
    by_cases hi : leader i.address = false ∨ curStart = none
    · obtain ⟨hins, hcut, hstart, hlead⟩ := hjoin h hi
      refine ⟨hins, hcut, fun s hs => by simpa [hs] using hstart, fun k hk hkl => ?_⟩
      rcases List.mem_cons.mp hk with rfl | hk
      · have hnone : curStart = none := hi.resolve_left (by simp [hkl])
        simpa [hnone] using hstart
      · exact hlead k hk hkl
    · -- a leader ends the block under way and starts the next one
      obtain ⟨hlead, hsome⟩ := not_or.mp hi
      obtain ⟨start, rfl⟩ := Option.ne_none_iff_exists'.mp hsome
      obtain ⟨hins, hcut, b, hb, hbs⟩ := flush_spec h
      obtain ⟨hins', hcut', ⟨c, hc, hcs⟩, hlead'⟩ :=
        hjoin underway_nil (.inr rfl)
      rw [splitBlocks_cut (by simpa using hlead)]
      refine ⟨by simp [hins, hins'], fun d hd => ?_, fun s hs => ?_, fun k hk hkl => ?_⟩
      · exact (List.mem_append.mp hd).elim (hcut d) (hcut' d)
      · exact ⟨b, List.mem_append_left _ hb, by rw [hbs, Option.some.inj hs]⟩
      · rcases List.mem_cons.mp hk with rfl | hk
        · exact ⟨c, List.mem_append_right _ hc, hcs⟩
        · obtain ⟨d, hd, hds⟩ := hlead' k hk hkl
          exact ⟨d, List.mem_append_right _ hd, hds⟩

private theorem sorted_starts {blocks : List BasicBlock} (hcut : ∀ b ∈ blocks, b.Cut)
    (h : (blocks.flatMap BasicBlock.insns).Pairwise (·.address < ·.address)) :
    blocks.Pairwise (·.start < ·.start) := by
  have hhead : ∀ b ∈ blocks, ∃ i ∈ b.insns, i.address = b.start := by
    intro b hb
    obtain ⟨i, hi, hstart⟩ := Option.map_eq_some_iff.mp (hcut b hb).1
    exact ⟨i, List.mem_of_mem_head? hi, hstart⟩
  induction blocks with
  | nil => exact List.Pairwise.nil
  | cons b blocks ih =>
    obtain ⟨-, hrest, hlt⟩ := List.pairwise_append.mp (List.flatMap_cons ▸ h)
    refine List.pairwise_cons.mpr ⟨fun c hc => ?_,
      ih (fun c hc => hcut c (List.mem_cons_of_mem b hc)) hrest
        fun c hc => hhead c (List.mem_cons_of_mem b hc)⟩
    obtain ⟨i, hi, his⟩ := hhead b List.mem_cons_self
    obtain ⟨j, hj, hjs⟩ := hhead c (List.mem_cons_of_mem b hc)
    rw [← his, ← hjs]
    exact hlt i hi j (List.mem_flatMap.mpr ⟨c, hc, hj⟩)

/-- What every recovered function satisfies: its blocks start at rising addresses,
and each ends in the instruction that decides its terminator and, jump tables
aside, its successors. -/
structure Function.Recovered (f : Function) : Prop where
  starts : f.blocks.Pairwise (·.start < ·.start)
  ends : ∀ b ∈ f.blocks, ∃ last, b.insns.getLast? = some last ∧ b.terminator = last.flow ∧
    (b.terminator ≠ .indirect → b.successors = flowSuccessors last)

/-- Whether an instruction of the function is at `a`. -/
def Function.hasInsn (f : Function) (a : ℕ) : Bool :=
  Aret.hasInsn (f.blocks.flatMap BasicBlock.insns) a

@[simp] theorem attachTables_insns (jumpTables : JumpTables) (insns : List Insn) (b : BasicBlock) :
    (attachTables jumpTables insns b).insns = b.insns := by
  rw [attachTables]
  split <;> rfl

@[simp] theorem attachTables_start (jumpTables : JumpTables) (insns : List Insn)
    (b : BasicBlock) : (attachTables jumpTables insns b).start = b.start := by
  rw [attachTables]
  split <;> rfl

@[simp] theorem attachTables_terminator (jumpTables : JumpTables) (insns : List Insn)
    (b : BasicBlock) : (attachTables jumpTables insns b).terminator = b.terminator := by
  rw [attachTables]
  split <;> rfl

section
variable {symbolName : ℕ → Option String}
  {findRetJumps : List Insn → InsnMap → ℕ → List (ℕ × ℕ)}
  {global : InsnMap} {entry : ℕ} {allEntries : ℕ → Bool} {jumpTables : JumpTables}
  {prologueOnly : ℕ → Bool} {f : Function}

private theorem sorted_foldl {α : Type} {step : List Insn → α → List Insn}
    (hstep : ∀ m a, m.Pairwise (·.address < ·.address) →
      (step m a).Pairwise (·.address < ·.address)) (l : List α) {m : List Insn}
    (hm : m.Pairwise (·.address < ·.address)) :
    (l.foldl step m).Pairwise (·.address < ·.address) := by
  induction l generalizing m with
  | nil => exact hm
  | cons a l ih => exact ih (hstep m a hm)

theorem sorted_functionInsns :
    (functionInsns findRetJumps global entry allEntries jumpTables prologueOnly).Pairwise
      (·.address < ·.address) := by
  rw [functionInsns]
  refine sorted_foldl (fun m i hm => sorted_insertInsn hm) _ (sorted_foldl ?_ _
    sorted_collectFunction)
  intro m rj hm
  have hmap : (m.map fun i => if i.address = rj.1 then
      { i with flow := .jump, target := some rj.2 } else i).Pairwise
        (·.address < ·.address) := by
    refine List.pairwise_map.mpr (hm.imp fun {i j} hij => ?_)
    split_ifs <;> exact hij
  rw [rewriteRet]
  split_ifs
  · exact hmap
  · refine sorted_foldl (fun m i hm => ?_) _ hmap
    split_ifs
    · exact hm
    · exact sorted_insertInsn hm

private theorem buildFunction_blocks
    (h : buildFunction symbolName findRetJumps global entry allEntries jumpTables prologueOnly
      = some f) :
    ∃ insns blocks, insns.Pairwise (fun i j : Insn => i.address < j.address) ∧
      f.entry = entry ∧
      blocks = splitBlocks (leaders jumpTables entry insns).contains none [] insns ∧
      f.blocks = blocks.map (attachTables jumpTables insns) ∧
      f.blocks.flatMap BasicBlock.insns = insns ∧ ∀ b ∈ blocks, b.Cut := by
  rw [buildFunction] at h
  split_ifs at h
  obtain rfl := Option.some.inj h
  set insns := functionInsns findRetJumps global entry allEntries jumpTables prologueOnly
  obtain ⟨hins, hcut, -, -⟩ := splitBlocks_spec
    (leaders jumpTables entry insns).contains insns underway_nil
  refine ⟨insns, _, sorted_functionInsns, rfl, rfl, rfl, ?_, hcut⟩
  rw [List.flatMap_map]
  simpa using hins

theorem buildFunction_recovered
    (h : buildFunction symbolName findRetJumps global entry allEntries jumpTables prologueOnly
      = some f) : f.Recovered := by
  obtain ⟨insns, blocks, hsorted, -, -, hf, hflat, hcut⟩ := buildFunction_blocks h
  have hflat' : blocks.flatMap BasicBlock.insns = insns := by
    rw [← hflat, hf, List.flatMap_map]
    simp
  refine ⟨?_, fun b hb => ?_⟩
  · rw [hf, List.pairwise_map]
    simpa using sorted_starts hcut (hflat'.symm ▸ hsorted)
  · rw [hf] at hb
    obtain ⟨c, hc, rfl⟩ := List.mem_map.mp hb
    obtain ⟨-, last, hlast, hterm, hsucc⟩ := hcut c hc
    refine ⟨last, by simpa using hlast, by simpa using hterm, fun hne => ?_⟩
    rw [attachTables_terminator] at hne
    rw [attachTables]
    split
    · rename_i h1 _
      exact absurd h1 hne
    · exact hsucc

theorem buildFunction_indirect
    (h : buildFunction symbolName findRetJumps global entry allEntries jumpTables prologueOnly
      = some f) {b : BasicBlock} (hb : b ∈ f.blocks) (hind : b.terminator = .indirect)
    {last : Insn} (hlast : b.insns.getLast? = some last) :
    b.successors = ((jumpTables last.address).getD []).filter f.hasInsn ∧
      ∀ t ∈ b.successors, ∃ c ∈ f.blocks, c.start = t := by
  obtain ⟨insns, blocks, -, -, hblocks, hf, hflat, hcut⟩ := buildFunction_blocks h
  have hhas : f.hasInsn = hasInsn insns := by
    funext a
    rw [Function.hasInsn, hflat]
  obtain ⟨c, hc, rfl⟩ := List.mem_map.mp (hf ▸ hb)
  rw [attachTables_insns] at hlast
  rw [attachTables_terminator] at hind
  obtain ⟨-, last', hlast', hterm, hsucc⟩ := hcut c hc
  obtain rfl : last' = last := Option.some.inj (hlast'.symm.trans hlast)
  have hsuccs : (attachTables jumpTables insns c).successors
      = ((jumpTables last'.address).getD []).filter (hasInsn insns) := by
    rw [attachTables, hind, hlast, Option.bind_some]
    rcases htab : jumpTables last'.address with _ | targets
    · rw [hsucc, flowSuccessors, ← hterm, hind]
      rfl
    · rfl
  refine ⟨by rw [hsuccs, hhas], fun t ht => ?_⟩
  rw [hsuccs] at ht
  obtain ⟨htab, hin⟩ := List.mem_filter.mp ht
  -- a table entry in the function is a leader, so it starts a block
  obtain ⟨i, hi, hit⟩ := hasInsn_iff.mp hin
  have hmem : last' ∈ insns := by
    rw [← hflat]
    exact List.mem_flatMap.mpr ⟨_, hb, by simpa using List.mem_of_getLast? hlast⟩
  have hlead : (leaders jumpTables entry insns).contains i.address = true := by
    rw [List.contains_iff_mem]
    refine List.mem_cons_of_mem _ (List.mem_flatMap.mpr ⟨last', hmem, ?_⟩)
    rw [leadersOf, ← hterm, hind]
    exact List.mem_append_right _ (by rw [hit]; exact ht)
  obtain ⟨-, -, -, hstart⟩ := splitBlocks_spec
    (leaders jumpTables entry insns).contains insns underway_nil
  obtain ⟨d, hd, hds⟩ := hstart i hi hlead
  rw [hf]
  exact ⟨_, List.mem_map_of_mem (hblocks ▸ hd), by rw [attachTables_start, hds, hit]⟩

end

end Aret
