/-
When a `ret` is taken for a jump.

`find_ret_jumps` follows the words on the stack that are pushed constants, and takes a
`ret` with such a word on top for a jump to it.

* `findRetJumps_sound` — along runs of such steps the word on top at a `ret` that is
  taken for a jump is the constant, pushed earlier in the run;
* `not_findRetJumps_sound` — `leave` moves the stack, and the pass does not know.
-/
import Aret.Analysis
import Aret.Worklist
import Mathlib.Data.List.Dedup

namespace Aret.RetJumps

/-! ### The pass -/

/-- The first operand, as far as it is the stack: the stack pointer, or memory at a
displacement from it, whatever the index and the size. -/
inductive Op0
  | stackPointer
  | stackMemory (disp : ℤ)
  | other
  deriving DecidableEq

/-- What the pass asks of a raw instruction: the constant of a `push imm32`,
`stack_pointer_increment`, the first operand, and whether it is a `ret` without
operands. -/
structure StackView where
  pushImm : Option ℕ
  spIncrement : ℤ
  op0 : Op0
  plainRet : Bool

/-- The tracked words from the top of the stack on: a constant, or unknown. -/
abbrev Stk := List (Option ℕ)

def maxDepth : ℕ := 48

section
variable (view : Insn → StackView) (global : InsnMap)

/-- The pops of the returns reached from the listed addresses, at most `budget` of which
are looked at. -/
def calleePops : ℕ → List ℕ → List ℕ → List ℕ → Option (List ℕ)
  | _, [], _, pops => some pops
  | 0, _ :: _, _, _ => none
  | budget + 1, a :: work, seen, pops =>
    if seen.contains a then calleePops budget work seen pops
    else
      match global.get a with
      | none => none
      | some i =>
        match i.flow with
        | .ret =>
          if (view i).spIncrement < 4 then none
          else calleePops budget work (a :: seen) (((view i).spIncrement - 4).toNat :: pops)
        | .jump =>
          match i.target with
          | some t => calleePops budget (t :: work) (a :: seen) pops
          | none => none
        | .condJump => calleePops budget (i.nextAddr :: (i.target.toList ++ work)) (a :: seen) pops
        | .indirect | .interrupt => none
        | .fallthrough | .call => calleePops budget (i.nextAddr :: work) (a :: seen) pops

/-- `callee_ret_pop`: a plain `ret` beside a `ret N` does not count. -/
def calleeRetPop (target : ℕ) : Option ℕ :=
  match calleePops view global 600 [target] [] [] with
  | none => none
  | some pops =>
    match (pops.filter (0 < ·)).dedup with
    | [] => some 0
    | [n] => some n
    | _ => none

/-- `is_cont`: an instruction at or not far after the entry. -/
def isCont (entry imm : ℕ) : Bool :=
  (global.get imm).isSome && entry ≤ imm && imm - entry < 0x8000

/-- By how many words the stack pointer goes up; `none` if that is unknown. -/
def stackDelta (i : Insn) : Option ℤ :=
  if i.flow = .call then (i.target.bind (calleeRetPop view global)).map fun n => ((n / 4 : ℕ) : ℤ)
  else if ((view i).op0 = .stackPointer ∧ (view i).spIncrement = 0) ∨
      (view i).spIncrement % 4 ≠ 0 then none
  else some ((view i).spIncrement / 4)

/-- The tracked words after the stack pointer goes up by `d` words. -/
def shift (d : ℤ) (stk : Stk) : Stk :=
  if 0 ≤ d then stk.drop d.toNat
  else (List.replicate (-d).toNat none ++ stk).take maxDepth

def overwrite : Op0 → Stk → Stk
  | .stackMemory disp, stk =>
    if disp < 0 ∨ disp % 4 ≠ 0 then [] else stk.set (disp / 4).toNat none
  | _, stk => stk

def transfer (entry : ℕ) (i : Insn) (stk : Stk) : Stk :=
  match (view i).pushImm with
  | some imm => ((if isCont global entry imm then some imm else none) :: stk).take maxDepth
  | none =>
    overwrite (view i).op0
      (match stackDelta view global i with
      | none => []
      | some d => shift d stk)

/-- `join`. -/
def meet (cur incoming : Stk) : Stk :=
  List.zipWith (fun a b => if a = b then a else none) cur incoming

def insnAt (insns : List Insn) (a : ℕ) : Option Insn := insns.find? (·.address == a)

def problem (insns : List Insn) (entry : ℕ) : Worklist.Problem ℕ Stk where
  succs a := ((insnAt insns a).map fun i =>
    (flowSuccessors i).filter (hasInsn insns)).getD []
  transfer a stk := ((insnAt insns a).map fun i => transfer view global entry i stk).getD stk
  meet := meet

def findRetJumps (insns : List Insn) (global : InsnMap) (entry : ℕ) : List (ℕ × ℕ) :=
  match Worklist.walk (problem view global insns entry) 20000 [entry]
      (fun a => if a = entry then some [] else none) with
  | none => []
  | some state =>
    insns.filterMap fun i =>
      if i.flow = .ret ∧ (view i).plainRet = true then
        match state i.address with
        | some (some imm :: _) => if isCont global entry imm then some (i.address, imm) else none
        | _ => none
      else none

end

/-! ### Runs -/

/-- A processor: its registers, of which the fourth is the stack pointer, and memory. -/
structure Cpu where
  reg : ℕ → BitVec 32
  mem : BitVec 32 → BitVec 8

namespace Cpu

variable (c : Cpu)

def esp : BitVec 32 := c.reg 4

def word (a : BitVec 32) : BitVec 32 :=
  c.mem (a + 3) ++ c.mem (a + 2) ++ c.mem (a + 1) ++ c.mem a

/-- The word at `[esp + 4 * k]`. -/
def slot (k : ℕ) : BitVec 32 := c.word (c.esp + BitVec.ofNat 32 (4 * k))

end Cpu

/-- A run of a function: the processor, the constants pushed so far, and the words that the
pass tracks along the run alone. -/
structure Run where
  cpu : Cpu
  pushed : List ℕ
  tracked : Stk

section
variable (view : Insn → StackView) (global : InsnMap) (exec : Insn → Stk → Cpu → Cpu → Prop)

/-- A step of a function's run: along an edge, with what the instruction does (a call up to
its return). -/
inductive Step (edge : Insn → ℕ → Prop) (insns : List Insn) (entry : ℕ) : ℕ → Run → ℕ → Run → Prop
  | mk {a b : ℕ} {r : Run} {c' : Cpu} {i : Insn} (hi : insnAt insns a = some i)
      (he : edge i b) (hb : hasInsn insns b = true) (hx : exec i r.tracked r.cpu c') :
      Step edge insns entry a r b
        ⟨c', (view i).pushImm.toList ++ r.pushed, transfer view global entry i r.tracked⟩

def Reaches (edge : Insn → ℕ → Prop) (insns : List Insn) (entry : ℕ) : ℕ → Run → Prop :=
  Worklist.Reaches (Step view global exec edge insns entry) entry
    (fun r => r.pushed = [] ∧ r.tracked = [])

end

/-- An edge of the recovered function: by the instruction's flow, of a jump table, or of a
`ret` that was taken for a jump. -/
def Edge (jumpTables : JumpTables) (jumps : List (ℕ × ℕ)) (i : Insn) (b : ℕ) : Prop :=
  b ∈ flowSuccessors i ∨ (i.flow = .indirect ∧ b ∈ (jumpTables i.address).getD []) ∨
    (i.address, b) ∈ jumps

/-- The first operand names the word `k` of the stack. -/
def Op0.names (op0 : Op0) (k : ℕ) : Prop := ∃ disp, op0 = .stackMemory disp ∧
  (disp < 0 ∨ disp % 4 ≠ 0 ∨ (disp / 4).toNat = k)

/-- The step moves the tracked words as the pass thinks: a constant pushed is on top of them,
and any other instruction whose effect is known moves the stack pointer by it and leaves each
of them there, but for one that its first operand names. -/
def Modelled (view : Insn → StackView) (global : InsnMap) (entry : ℕ) (i : Insn) (stk : Stk)
    (c c' : Cpu) : Prop :=
  match (view i).pushImm with
  | some imm => (isCont global entry imm = true → c'.slot 0 = BitVec.ofNat 32 imm) ∧
    ∀ k v, stk[k]? = some (some v) → c'.slot (k + 1) = c.slot k
  | none => ∀ d, stackDelta view global i = some d → ∀ k < maxDepth, 0 ≤ (k : ℤ) + d →
    ∀ v, stk[(k + d).toNat]? = some (some v) → ¬ (view i).op0.names k →
      c'.slot k = c.slot (k + d).toNat

/-! ### Soundness along modelled runs -/

/-- The tracked words are on the stack, and were pushed. -/
def Run.Tracks (r : Run) : Prop :=
  r.tracked.length ≤ maxDepth ∧ ∀ (k v : ℕ), r.tracked[k]? = some (some v) →
    r.cpu.slot k = BitVec.ofNat 32 v ∧ v ∈ r.pushed

def Weaker (s t : Stk) : Prop :=
  t.length ≤ s.length ∧ ∀ (k v : ℕ), t[k]? = some (some v) → s[k]? = some (some v)

section
variable {view : Insn → StackView} {global : InsnMap} {insns : List Insn} {entry : ℕ}

theorem getElem?_meet {s t : Stk} {k v : ℕ} (h : (meet s t)[k]? = some (some v)) :
    s[k]? = some (some v) ∧ t[k]? = some (some v) := by
  rw [meet, List.getElem?_zipWith] at h
  cases hs : s[k]? with
  | none => simp [hs] at h
  | some a =>
    cases ht : t[k]? with
    | none => simp [hs, ht] at h
    | some b =>
      simp only [hs, ht, Option.some.injEq] at h
      split_ifs at h with hab
      exact ⟨by rw [h], by rw [← hab, h]⟩

theorem Weaker.trans {s t u : Stk} (h : Weaker s t) (h' : Weaker t u) : Weaker s u :=
  ⟨h'.1.trans h.1, fun k v hv => h.2 k v (h'.2 k v hv)⟩

theorem weakens : (problem view global insns entry).Weakens Weaker where
  refl := fun s => ⟨le_rfl, fun _ _ h => h⟩
  trans := fun _ _ _ h h' => h.trans h'
  meet_left := fun s t => by
    refine ⟨?_, fun k v hv => (getElem?_meet hv).1⟩
    show (meet s t).length ≤ s.length
    exact List.length_zipWith.trans_le (min_le_left _ _)
  meet_right := fun s t => by
    refine ⟨?_, fun k v hv => (getElem?_meet hv).2⟩
    show (meet s t).length ≤ t.length
    exact List.length_zipWith.trans_le (min_le_right _ _)

theorem length_shift_le {d : ℤ} {stk : Stk} (h : stk.length ≤ maxDepth) :
    (shift d stk).length ≤ maxDepth := by
  rw [shift]
  split_ifs
  · rw [List.length_drop]
    omega
  · rw [List.length_take]
    exact min_le_left _ _

theorem getElem?_shift {d : ℤ} {stk : Stk} {k v : ℕ} (h : (shift d stk)[k]? = some (some v)) :
    0 ≤ (k : ℤ) + d ∧ stk[((k : ℤ) + d).toNat]? = some (some v) := by
  rw [shift] at h
  split_ifs at h with hd
  · rw [List.getElem?_drop] at h
    refine ⟨by omega, ?_⟩
    rw [← h]
    congr 1
    omega
  · have hk : k < maxDepth := by
      have hlt := (List.getElem?_eq_some_iff.mp h).1
      rw [List.length_take] at hlt
      omega
    rw [List.getElem?_take_of_lt hk] at h
    by_cases hlow : k < (-d).toNat
    · rw [List.getElem?_append_left (by simpa using hlow)] at h
      simp [hlow] at h
    · rw [List.getElem?_append_right (by simpa using hlow), List.length_replicate] at h
      refine ⟨by omega, ?_⟩
      rw [← h]
      congr 1
      omega

theorem getElem?_overwrite {op0 : Op0} {stk : Stk} {k v : ℕ}
    (h : (overwrite op0 stk)[k]? = some (some v)) : stk[k]? = some (some v) ∧ ¬ op0.names k := by
  cases op0 with
  | stackMemory disp =>
    rw [overwrite] at h
    split_ifs at h with hclear
    · simp at h
    · rw [List.getElem?_set] at h
      split_ifs at h with hk
      · simp at h
      · refine ⟨h, ?_⟩
        rintro ⟨disp', heq, hnames⟩
        cases heq
        omega
  | stackPointer => exact ⟨h, by rintro ⟨disp, heq, -⟩; cases heq⟩
  | other => exact ⟨h, by rintro ⟨disp, heq, -⟩; cases heq⟩

theorem length_overwrite_le (op0 : Op0) (stk : Stk) : (overwrite op0 stk).length ≤ stk.length := by
  cases op0 with
  | stackMemory disp =>
    rw [overwrite]
    split_ifs
    · simp
    · simp
  | stackPointer => exact le_rfl
  | other => exact le_rfl

/-- **One modelled step**: what the pass makes of the tracked words is on the stack after. -/
theorem Run.Tracks.step {r : Run} {c' : Cpu} {i : Insn} (h : r.Tracks)
    (hm : Modelled view global entry i r.tracked r.cpu c') :
    (Run.mk c' ((view i).pushImm.toList ++ r.pushed)
      (transfer view global entry i r.tracked)).Tracks := by
  rw [Modelled] at hm
  rw [Run.Tracks]
  dsimp only
  rw [transfer]
  cases himm : (view i).pushImm with
  | some imm =>
    simp only [himm] at hm
    refine ⟨List.length_take_le _ _, ?_⟩
    intro k v hv
    have hk : k < maxDepth := by
      have hlt := (List.getElem?_eq_some_iff.mp hv).1
      rw [List.length_take] at hlt
      omega
    -- the constant on top is tracked only if it is the address of an instruction
    rw [List.getElem?_take_of_lt hk] at hv
    cases k with
    | zero =>
      have hv' : (if isCont global entry imm then some imm else none) = some v := by simpa using hv
      split_ifs at hv' with hcont
      cases hv'
      exact ⟨hm.1 hcont, by simp⟩
    | succ k =>
      rw [List.getElem?_cons_succ] at hv
      obtain ⟨hslot, hmem⟩ := h.2 k v hv
      exact ⟨(hm.2 k v hv).trans hslot, List.mem_append_right _ hmem⟩
  | none =>
    simp only [himm] at hm
    cases hd : stackDelta view global i with
    | none =>
      -- an effect that the pass does not know leaves nothing tracked
      have hlen := length_overwrite_le (view i).op0 []
      refine ⟨hlen.trans (by simp), fun k v hv => ?_⟩
      have hnil := (getElem?_overwrite hv).1
      simp at hnil
    | some d =>
      have hlen := (length_overwrite_le (view i).op0 (shift d r.tracked)).trans
        (length_shift_le h.1)
      refine ⟨hlen, fun k v hv => ?_⟩
      have hk : k < maxDepth := (List.getElem?_eq_some_iff.mp hv).1.trans_le hlen
      obtain ⟨hshift, hnames⟩ := getElem?_overwrite hv
      obtain ⟨hpos, hold⟩ := getElem?_shift hshift
      obtain ⟨hslot, hmem⟩ := h.2 _ v hold
      exact ⟨(hm d hd k hk hpos v hold hnames).trans hslot, List.mem_append_right _ hmem⟩

theorem Weaker.shift {s t : Stk} (h : Weaker s t) (d : ℤ) :
    Weaker (shift d s) (RetJumps.shift d t) := by
  rw [RetJumps.shift, RetJumps.shift]
  split_ifs
  · refine ⟨?_, fun k v hv => ?_⟩
    · rw [List.length_drop, List.length_drop]
      exact Nat.sub_le_sub_right h.1 _
    · rw [List.getElem?_drop] at hv ⊢
      exact h.2 _ v hv
  · refine ⟨?_, fun k v hv => ?_⟩
    · simp only [List.length_take, List.length_append, List.length_replicate]
      have hlen := h.1
      omega
    · rw [List.getElem?_take] at hv ⊢
      split_ifs at hv ⊢
      rw [List.getElem?_append] at hv ⊢
      split_ifs at hv ⊢
      · exact hv
      · exact h.2 _ v hv

theorem Weaker.overwrite {s t : Stk} (h : Weaker s t) (op0 : Op0) :
    Weaker (overwrite op0 s) (RetJumps.overwrite op0 t) := by
  cases op0 with
  | stackMemory disp =>
    rw [RetJumps.overwrite, RetJumps.overwrite]
    split_ifs
    · exact ⟨le_rfl, fun _ _ hv => hv⟩
    · refine ⟨by rw [List.length_set, List.length_set]; exact h.1, fun k v hv => ?_⟩
      rw [List.getElem?_set] at hv ⊢
      split_ifs at hv ⊢
      · cases hv
      · cases hv
      · exact h.2 _ v hv
  | stackPointer => exact h
  | other => exact h

/-- The pass tracks no less after an instruction where it tracked no less before. -/
theorem Weaker.transfer {s t : Stk} (h : Weaker s t) (i : Insn) :
    Weaker (transfer view global entry i s) (RetJumps.transfer view global entry i t) := by
  rw [RetJumps.transfer, RetJumps.transfer]
  cases (view i).pushImm with
  | some imm =>
    refine ⟨?_, fun k v hv => ?_⟩
    · rw [List.length_take, List.length_take, List.length_cons, List.length_cons]
      have hlen := h.1
      omega
    · rw [List.getElem?_take] at hv ⊢
      split_ifs at hv ⊢ with hk
      all_goals cases k with
        | zero => exact hv
        | succ k => exact h.2 k v hv
  | none =>
    refine Weaker.overwrite ?_ _
    cases stackDelta view global i with
    | none => exact ⟨le_rfl, fun _ _ hv => hv⟩
    | some d => exact h.shift d

end

/-- **A `ret` taken for a jump is one, where the stack moves as the pass thinks.**  In a run
along the edges the pass follows, each of whose steps is modelled, the word on top at such a
`ret` is the constant, and was pushed earlier in the run. -/
theorem findRetJumps_sound (view : Insn → StackView) (exec : Insn → Cpu → Cpu → Prop)
    (insns : List Insn) (global : InsnMap) (entry a t : ℕ) (r : Run)
    (hjump : (a, t) ∈ findRetJumps view insns global entry)
    (hrun : Reaches view global
      (fun i stk c c' => exec i c c' ∧ Modelled view global entry i stk c c')
      (fun i b => b ∈ flowSuccessors i) insns entry a r) :
    r.cpu.word r.cpu.esp = BitVec.ofNat 32 t ∧ t ∈ r.pushed := by
  rw [findRetJumps] at hjump
  cases hwalk : Worklist.walk (problem view global insns entry) 20000 [entry]
      (fun a => if a = entry then some [] else none) with
  | none => simp [hwalk] at hjump
  | some state =>
    simp only [hwalk, List.mem_filterMap] at hjump
    obtain ⟨i, -, hi⟩ := hjump
    split_ifs at hi with hret
    cases hstate : state i.address with
    | none => simp [hstate] at hi
    | some stk =>
      cases stk with
      | nil => simp [hstate] at hi
      | cons top stk =>
        cases top with
        | none => simp [hstate] at hi
        | some imm =>
          simp only [hstate] at hi
          split_ifs at hi
          obtain ⟨rfl, rfl⟩ : i.address = a ∧ imm = t := by simpa using hi
          -- the states are closed, the one at the entry tracks nothing
          obtain ⟨habove, hclosed⟩ := Worklist.walk_closed weakens (fun b s hs => by
            by_cases hb : b = entry
            · exact .inl (by simp [hb])
            · simp [hb] at hs) hwalk
          obtain ⟨s, hs, -⟩ := habove entry [] (by simp)
          have hnil : s = [] := by
            obtain ⟨r, hr, hle⟩ := habove entry [] (by simp)
            rw [hs] at hr
            cases hr
            exact List.length_eq_zero_iff.mp (Nat.le_zero.mp hle.1)
          obtain ⟨stk', hstk', htracks, hweaker⟩ := hrun.described hclosed
            (γ := fun (s : Stk) (r : Run) => r.Tracks ∧ Weaker r.tracked s)
            ⟨s, hs, fun r hr => by
              rw [Run.Tracks, hr.2, hnil]
              exact ⟨⟨by simp, by simp⟩, le_rfl, by simp⟩⟩
            (fun _ _ _ hle h => ⟨h.1, h.2.trans hle⟩)
            (fun b x b' x' s hstep hγ => by
              cases hstep with
              | @mk _ _ _ j hj he hb hx =>
                refine ⟨by simp [problem, hj, he, hb], hγ.1.step hx.2, ?_⟩
                simpa [problem, hj] using hγ.2.transfer j)
          rw [hstate] at hstk'
          cases hstk'
          obtain ⟨hslot, hmem⟩ := htracks.2 0 imm (hweaker.2 0 imm rfl)
          refine ⟨?_, hmem⟩
          have hzero : r.cpu.slot 0 = r.cpu.word r.cpu.esp := by simp [Cpu.slot]
          rw [← hzero]
          exact hslot

/-! ### `leave` -/

namespace Cpu

def set (c : Cpu) (r : ℕ) (v : BitVec 32) : Cpu := { c with reg := Function.update c.reg r v }

def store (c : Cpu) (a v : BitVec 32) : Cpu :=
  { c with mem := fun x =>
      if (x - a).toNat < 4 then (v >>> (8 * (x - a).toNat)).setWidth 8 else c.mem x }

def push (c : Cpu) (v : BitVec 32) : Cpu := (c.set 4 (c.esp - 4)).store (c.esp - 4) v

/-- `leave`: `mov esp, ebp`, and `pop ebp`. -/
def leave (c : Cpu) : Cpu := (c.set 4 (c.reg 5 + 4)).set 5 (c.word (c.reg 5))

end Cpu

def plainInsn (address len : ℕ) (text : String) (flow : Flow) : Insn where
  address := address
  len := len
  text := text
  flow := flow
  target := none
  callName := none
  raw := ⟨flow == .ret, .konst 0 32, none, none, none, none, false, none, 0⟩

def frameInsns : List Insn :=
  [plainInsn 0x1000 1 "push ebp" .fallthrough, plainInsn 0x1001 2 "mov ebp, esp" .fallthrough,
    plainInsn 0x1003 5 "push 0x1010" .fallthrough, plainInsn 0x1008 1 "leave" .fallthrough,
    plainInsn 0x1009 1 "ret" .ret]

def frameGlobal : InsnMap where
  insns := frameInsns ++ [plainInsn 0x1010 1 "nop" .fallthrough]
  sorted := by decide

/-- The increment of `leave` is zero, as it is for any instruction that neither pushes nor
pops by a constant. -/
def frameView (i : Insn) : StackView :=
  if i.address = 0x1000 then ⟨none, -4, .other, false⟩
  else if i.address = 0x1003 then ⟨some 0x1010, -4, .other, false⟩
  else if i.address = 0x1009 then ⟨none, 4, .other, true⟩
  else ⟨none, 0, .other, false⟩

def frameExec (i : Insn) (c c' : Cpu) : Prop :=
  (i.address = 0x1000 ∧ c' = c.push (c.reg 5)) ∨ (i.address = 0x1001 ∧ c' = c.set 5 c.esp) ∨
    (i.address = 0x1003 ∧ c' = c.push 0x1010) ∨ (i.address = 0x1008 ∧ c' = c.leave)

/-- The state at the entry: the return address `0x2000` is on top of the stack. -/
def frameStart : Cpu where
  reg r := if r = 4 then 0x8000 else 0
  mem a := if a = 0x8001 then 0x20 else 0

/-- A local variable is set, and a `ret` stands right after the push. -/
def pushInsns : List Insn :=
  [plainInsn 0x1000 3 "mov [ebp-4], eax" .fallthrough,
    plainInsn 0x1003 5 "push 0x1010" .fallthrough, plainInsn 0x1008 1 "ret" .ret]

def pushView (i : Insn) : StackView :=
  if i.address = 0x1000 then ⟨none, 0, .other, false⟩
  else if i.address = 0x1003 then ⟨some 0x1010, -4, .other, false⟩ else ⟨none, 4, .other, true⟩

def pushExec (i : Insn) (c c' : Cpu) : Prop :=
  (i.address = 0x1000 ∧ c' = c.store (c.reg 5 - 4) (c.reg 0)) ∨
    (i.address = 0x1003 ∧ c' = c.push 0x1010)

/-- The variable is on top of the stack. -/
def pushStart : Cpu := frameStart.set 5 0x8004

theorem findRetJumps_sound_push :
    ((pushStart.store 0x8000 0).push 0x1010).word ((pushStart.store 0x8000 0).push 0x1010).esp =
        BitVec.ofNat 32 0x1010 ∧ 0x1010 ∈ [0x1010] := by
  have hjump : (0x1008, 0x1010) ∈ findRetJumps pushView pushInsns frameGlobal 0x1000 := by
    decide +kernel
  have hstart : Reaches pushView frameGlobal (fun i stk c c' =>
      pushExec i c c' ∧ Modelled pushView frameGlobal 0x1000 i stk c c')
      (fun i b => b ∈ flowSuccessors i) pushInsns 0x1000 0x1000 ⟨pushStart, [], []⟩ :=
    .start ⟨rfl, rfl⟩
  have hstored : Reaches pushView frameGlobal (fun i stk c c' =>
      pushExec i c c' ∧ Modelled pushView frameGlobal 0x1000 i stk c c')
      (fun i b => b ∈ flowSuccessors i) pushInsns 0x1000 0x1003
      ⟨pushStart.store 0x8000 0, [], []⟩ := by
    refine hstart.step (.mk (i := plainInsn 0x1000 3 "mov [ebp-4], eax" .fallthrough) rfl
      (by decide) (by decide) ⟨.inl ⟨rfl, rfl⟩, fun d _ k _ _ v hv => ?_⟩)
    cases hv
  refine findRetJumps_sound pushView pushExec pushInsns frameGlobal 0x1000 0x1008 0x1010
    ⟨(pushStart.store 0x8000 0).push 0x1010, [0x1010], [some 0x1010]⟩ hjump ?_
  have hmodelled : Modelled pushView frameGlobal 0x1000
      (plainInsn 0x1003 5 "push 0x1010" .fallthrough) [] (pushStart.store 0x8000 0)
      ((pushStart.store 0x8000 0).push 0x1010) :=
    ⟨fun _ => by decide +kernel, fun k v hv => by cases hv⟩
  exact hstored.step (.mk (i := plainInsn 0x1003 5 "push 0x1010" .fallthrough) rfl (by decide)
    (by decide) ⟨.inr ⟨rfl, rfl⟩, hmodelled⟩)

/-- **A return is taken for a jump**: `leave` takes the constant off the stack, and `ret`
goes back to the caller. -/
theorem not_findRetJumps_sound :
    ¬ ∀ (a t : ℕ), (a, t) ∈ findRetJumps frameView frameInsns frameGlobal 0x1000 →
      ∀ r : Run, Reaches frameView frameGlobal (fun i _ c c' => frameExec i c c')
          (Edge (fun _ => none) (findRetJumps frameView frameInsns frameGlobal 0x1000)) frameInsns
          0x1000 a r →
        r.cpu.word r.cpu.esp = BitVec.ofNat 32 t := by
  intro h
  have hjump : (0x1009, 0x1010) ∈ findRetJumps frameView frameInsns frameGlobal 0x1000 := by
    decide +kernel
  have h0 : Reaches frameView frameGlobal (fun i _ c c' => frameExec i c c') (Edge (fun _ => none)
      (findRetJumps frameView frameInsns frameGlobal 0x1000)) frameInsns 0x1000 0x1000
      ⟨frameStart, [], []⟩ := .start ⟨rfl, rfl⟩
  have h1 := h0.step (.mk (i := plainInsn 0x1000 1 "push ebp" .fallthrough) (b := 0x1001) rfl
    (.inl (by decide)) (by decide) (.inl ⟨rfl, rfl⟩))
  have h2 := h1.step (.mk (i := plainInsn 0x1001 2 "mov ebp, esp" .fallthrough) (b := 0x1003) rfl
    (.inl (by decide)) (by decide) (.inr (.inl ⟨rfl, rfl⟩)))
  have h3 := h2.step (.mk (i := plainInsn 0x1003 5 "push 0x1010" .fallthrough) (b := 0x1008) rfl
    (.inl (by decide)) (by decide) (.inr (.inr (.inl ⟨rfl, rfl⟩))))
  have h4 := h3.step (.mk (i := plainInsn 0x1008 1 "leave" .fallthrough) (b := 0x1009) rfl
    (.inl (by decide)) (by decide) (.inr (.inr (.inr ⟨rfl, rfl⟩))))
  have hword := h 0x1009 0x1010 hjump _ h4
  revert hword
  decide +kernel

end Aret.RetJumps
