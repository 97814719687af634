/-
When the blocks of a recovered function are straight-line code that starts
where it is jumped to.

* `buildFunction_formed_iff` — this is what the blocks are correct for.
-/
import Aret.BuildIrShape
import Mathlib.Data.List.SplitBy

namespace Aret

section

variable {α : Type} {r : α → α → Bool} {l : List α}

theorem exists_head_splitBy {pre post : List α} {j : α} (h : ∀ k ∈ pre.getLast?, r k j = false) :
    ∃ g ∈ (pre ++ j :: post).splitBy r, g.head? = some j := by
  rw [List.splitBy_append_cons post h]
  have hne : (j :: post).splitBy r ≠ [] := List.splitBy_ne_nil.mpr (List.cons_ne_nil _ _)
  have hmem := List.head_mem hne
  refine ⟨_, List.mem_append_right _ hmem, ?_⟩
  rw [List.head?_eq_some_head (List.ne_nil_of_mem_splitBy hmem),
    List.head_head_splitBy r (List.cons_ne_nil j post), List.head_cons]

theorem exists_getLast_splitBy {pre post : List α} {i : α} (h : ∀ j ∈ post.head?, r i j = false) :
    ∃ g ∈ (pre ++ i :: post).splitBy r, g.getLast? = some i := by
  have hne : pre ++ [i] ≠ [] := by simp
  have hsplit : (pre ++ i :: post).splitBy r = (pre ++ [i]).splitBy r ++ post.splitBy r := by
    rw [← List.splitBy_append, List.append_assoc, List.singleton_append]
    simpa using h
  rw [hsplit]
  have hne' : (pre ++ [i]).splitBy r ≠ [] := List.splitBy_ne_nil.mpr hne
  have hmem := List.getLast_mem hne'
  refine ⟨_, List.mem_append_left _ hmem, ?_⟩
  rw [List.getLast?_eq_some_getLast (List.ne_nil_of_mem_splitBy hmem),
    List.getLast_getLast_splitBy r hne, List.getLast_append_singleton]

theorem exists_infix_splitBy {pre post : List α} {i j : α} (h : r i j = true) :
    ∃ g ∈ (pre ++ i :: j :: post).splitBy r, [i, j] <:+: g := by
  have hflat := List.flatten_splitBy r (pre ++ i :: j :: post)
  have hnil := List.nil_notMem_splitBy r (pre ++ i :: j :: post)
  have hends := List.isChain_getLast_head_splitBy r (pre ++ i :: j :: post)
  generalize (pre ++ i :: j :: post).splitBy r = m at hflat hnil hends
  induction m generalizing pre with
  | nil => simp at hflat
  | cons g m ih =>
    obtain ⟨hg, hm⟩ := not_or.mp (List.mem_cons.not.mp hnil)
    rw [List.flatten_cons] at hflat
    have hrest : ∀ {pre}, m.flatten = pre ++ i :: j :: post → ∃ g' ∈ g :: m, [i, j] <:+: g' := by
      intro pre hpre
      obtain ⟨g', hg', hin⟩ := ih hpre hm hends.tail
      exact ⟨g', List.mem_cons_of_mem _ hg', hin⟩
    rcases List.append_eq_append_iff.mp hflat with ⟨as, -, hpre⟩ | ⟨bs, hgs, hpost⟩
    · exact hrest hpre
    · cases bs with
      | nil => exact @hrest [] hpost.symm
      | cons b bs =>
        obtain ⟨rfl, -⟩ := List.cons.inj hpost
        cases bs with
        | nil =>
          -- the first part would end between the two
          cases m with
          | nil => simp at hpost
          | cons g' m =>
            obtain ⟨⟨_, hg', hfalse⟩, -⟩ := List.isChain_cons_cons.mp hends
            have hlast : g.getLast (Ne.symm hg) = i := by simp [hgs]
            have hhead : g'.head hg' = j := by
              cases g' with
              | nil => exact absurd rfl hg'
              | cons k g' => exact ((List.cons.inj (List.cons.inj hpost).2).1).symm
            rw [hlast, hhead, h] at hfalse
            exact absurd hfalse nofun
        | cons c bs =>
          obtain ⟨rfl, -⟩ := List.cons.inj (List.cons.inj hpost).2
          exact ⟨g, List.mem_cons_self, pre, bs, by simp [hgs]⟩

theorem splitBy_part {g : List α} (hg : g ∈ l.splitBy r) : ∃ pre post, l = pre ++ g ++ post ∧
    g ≠ [] ∧ g.IsChain (fun x y => r x y) ∧
    (∀ k ∈ pre.getLast?, ∀ j ∈ g.head?, r k j = false) ∧
    ∀ j, post.head? = some j → ∃ g' ∈ l.splitBy r, g'.head? = some j := by
  obtain ⟨ms, ms', hparts⟩ := List.append_of_mem hg
  have hflat := List.flatten_splitBy r l
  have hends := List.isChain_getLast_head_splitBy r l
  have hne := List.ne_nil_of_mem_splitBy hg
  have hnil := List.nil_notMem_splitBy r l
  refine ⟨ms.flatten, ms'.flatten, ?_, hne, List.isChain_of_mem_splitBy hg, ?_, ?_⟩
  · rw [← hflat, hparts]
    simp
  · intro k hk j hj
    induction ms using List.reverseRecOn with
    | nil => simp at hk
    | append_singleton ms m _ =>
      have hm : m ≠ [] := by
        rintro rfl
        exact hnil (by simp [hparts])
      rw [hparts, List.append_assoc, List.singleton_append] at hends
      have hpair := (List.isChain_append.mp hends).2.1
      obtain ⟨⟨hm', hg', hfalse⟩, -⟩ := List.isChain_cons_cons.mp hpair
      rw [List.flatten_append, List.flatten_singleton, List.getLast?_append_of_ne_nil _ hm,
        List.getLast?_eq_some_getLast hm] at hk
      rw [List.head?_eq_some_head hne] at hj
      obtain rfl := Option.some.inj hk
      obtain rfl := Option.some.inj hj
      exact hfalse
  · intro j hj
    cases ms' with
    | nil => simp at hj
    | cons g' ms' =>
      have hg' : g' ∈ l.splitBy r := by simp [hparts]
      refine ⟨g', hg', ?_⟩
      cases g' with
      | nil => exact absurd hg' hnil
      | cons k g' => simpa using hj

end

/-! ### Blocks as parts of the instructions -/

def joined (leader : ℕ → Bool) (i j : Insn) : Bool :=
  !i.flow.terminates && !leader j.address

def blockOf (g : List Insn) : List BasicBlock := flush (g.head?.elim 0 Insn.address) g

section
variable {leader : ℕ → Bool}

private theorem splitBlocks_step {start : ℕ} {cur rest : List Insn} {i : Insn}
    (hstart : (cur ++ [i]).head?.map Insn.address = some start)
    (hcur : (cur ++ [i]).IsChain fun x y => joined leader x y)
    (hnone : splitBlocks leader none [] rest = (rest.splitBy (joined leader)).flatMap blockOf)
    (hsome : (∀ j ∈ rest.head?, joined leader i j = true) →
      splitBlocks leader (some start) (cur ++ [i]) rest
        = ((cur ++ [i] ++ rest).splitBy (joined leader)).flatMap blockOf) :
    (if i.flow.terminates || (rest.head?.all fun n => leader n.address) then
        flush start (cur ++ [i]) ++ splitBlocks leader none [] rest
      else splitBlocks leader (some start) (cur ++ [i]) rest)
      = ((cur ++ [i] ++ rest).splitBy (joined leader)).flatMap blockOf := by
  split_ifs with hend
  · have hsplit : (cur ++ [i] ++ rest).splitBy (joined leader)
        = (cur ++ [i]).splitBy (joined leader) ++ rest.splitBy (joined leader) := by
      refine List.splitBy_append fun k hk j hj => ?_
      obtain rfl : i = k := by simpa using hk
      obtain ⟨rest', rfl⟩ := List.head?_eq_some_iff.mp hj
      simp only [List.head?_cons, Option.all_some, Bool.or_eq_true] at hend
      rcases hend with hend | hend <;> simp [joined, hend]
    obtain ⟨first, hfirst, haddr⟩ := Option.map_eq_some_iff.mp hstart
    rw [hsplit, List.splitBy_of_isChain (by simp) hcur, List.flatMap_append, hnone]
    simp [blockOf, hfirst, haddr]
  · refine hsome fun j hj => ?_
    simp only [Bool.or_eq_true, not_or, Bool.not_eq_true] at hend
    obtain ⟨hflow, hall⟩ := hend
    rw [hj, Option.all_some] at hall
    simp [joined, hflow, hall]

private theorem splitBlocks_splitBy (rest : List Insn) :
    splitBlocks leader none [] rest = (rest.splitBy (joined leader)).flatMap blockOf ∧
      ∀ start cur, cur.head?.map Insn.address = some start →
        (cur.IsChain fun x y => joined leader x y) →
        (∀ i ∈ cur.getLast?, ∀ j ∈ rest.head?, joined leader i j = true) →
        splitBlocks leader (some start) cur rest
          = ((cur ++ rest).splitBy (joined leader)).flatMap blockOf := by
  induction rest with
  | nil =>
    refine ⟨by simp [splitBlocks], fun start cur hstart hcur _ => ?_⟩
    obtain ⟨first, hfirst, haddr⟩ := Option.map_eq_some_iff.mp hstart
    have hne : cur ≠ [] := by
      rintro rfl
      simp at hfirst
    rw [List.append_nil, List.splitBy_of_isChain hne hcur, splitBlocks]
    simp [blockOf, hfirst, haddr]
  | cons i rest ih =>
    obtain ⟨hnone, hsome⟩ := ih
    constructor
    · have hstep := @splitBlocks_step leader i.address [] rest i rfl
        (List.isChain_singleton i) hnone fun hj => hsome _ _ rfl (List.isChain_singleton i)
          (by simpa using hj)
      rw [splitBlocks]
      simpa using hstep
    · intro start cur hstart hcur hlast
      have hne : cur ≠ [] := by
        rintro rfl
        simp at hstart
      have hjoin : joined leader (cur.getLast hne) i = true :=
        hlast _ (List.getLast_mem_getLast? hne) i rfl
      have hnot : leader i.address = false := by
        have hboth : (cur.getLast hne).flow.terminates = false ∧ leader i.address = false := by
          simpa [joined] using hjoin
        exact hboth.2
      have hchain : (cur ++ [i]).IsChain fun x y => joined leader x y :=
        List.isChain_append.mpr ⟨hcur, List.isChain_singleton i, by simpa using hlast⟩
      have hhead : (cur ++ [i]).head?.map Insn.address = some start := by
        rw [List.head?_append_of_ne_nil _ hne]
        exact hstart
      have hstep := splitBlocks_step hhead hchain hnone fun hj => hsome _ _ hhead hchain
        (by simpa using hj)
      rw [splitBlocks]
      simpa [hnot] using hstep

/-- **The blocks are the parts** of the instructions between the places where one
terminates or the next is a leader. -/
theorem splitBlocks_eq (insns : List Insn) :
    splitBlocks leader none [] insns = (insns.splitBy (joined leader)).flatMap blockOf :=
  (splitBlocks_splitBy insns).1

end

/-! ### When the blocks are well formed -/

/-- The blocks cut the instructions up, each at the address it starts at; each is
straight-line code; and a successor among the instructions starts a block. -/
structure Function.Formed (f : Function) (insns : List Insn) : Prop where
  partition : f.blocks.flatMap BasicBlock.insns = insns
  starts : ∀ b ∈ f.blocks, b.insns.head?.map Insn.address = some b.start
  straight : ∀ b ∈ f.blocks,
    b.insns.IsChain fun i j => i.flow.terminates = false ∧ j.address = i.nextAddr
  successors : ∀ b ∈ f.blocks, ∀ s ∈ b.successors, Aret.hasInsn insns s = true →
    ∃ c ∈ f.blocks, c.start = s

/-- A block begins at `a`: at a leader, at the first instruction, or after one that
terminates. -/
def Begins (leader : ℕ → Bool) (insns : List Insn) (a : ℕ) : Prop :=
  ∃ pre j post, insns = pre ++ j :: post ∧ j.address = a ∧
    (leader a = true ∨ ∀ k ∈ pre.getLast?, k.flow.terminates = true)

/-- An instruction that falls through has the one it falls through to next in address
order, or a leader; then a block begins where it falls through to. -/
def Lined (leader : ℕ → Bool) (insns : List Insn) : Prop :=
  ∀ pre i post, insns = pre ++ i :: post → i.flow.terminates = false →
    post.head?.map Insn.address = some i.nextAddr ∨
      (∀ j ∈ post.head?, leader j.address = true) ∧
        (hasInsn insns i.nextAddr = true → Begins leader insns i.nextAddr)

theorem mem_blockOf {g : List Insn} {b : BasicBlock} (hb : b ∈ blockOf g) :
    b.insns = g ∧ b.Cut := by
  obtain _ | ⟨first, rest⟩ := g
  · simp [blockOf, flush] at hb
  · obtain ⟨last, hlast⟩ := Option.isSome_iff_exists.mp
      (show ((first :: rest).getLast?).isSome by simp)
    simp only [blockOf, flush, hlast, List.mem_singleton] at hb
    subst hb
    exact ⟨rfl, rfl, last, hlast, rfl, rfl⟩

theorem flatMap_blockOf (parts : List (List Insn)) :
    (parts.flatMap blockOf).flatMap BasicBlock.insns = parts.flatten := by
  induction parts with
  | nil => rfl
  | cons g parts ih =>
    rw [List.flatMap_cons, List.flatMap_append, List.flatten_cons, ih]
    obtain _ | ⟨first, rest⟩ := g
    · rfl
    · obtain ⟨last, hlast⟩ := Option.isSome_iff_exists.mp
        (show ((first :: rest).getLast?).isSome by simp)
      simp [blockOf, flush, hlast]

theorem exists_mem_blockOf {g : List Insn} {last : Insn} (hlast : g.getLast? = some last) :
    ∃ b ∈ blockOf g, b.insns = g := by
  simp only [blockOf, flush, hlast]
  exact ⟨_, List.mem_singleton_self _, rfl⟩

section
variable {leader : ℕ → Bool} {insns : List Insn} {a : ℕ}

theorem exists_part_iff_begins :
    (∃ g ∈ insns.splitBy (joined leader), g.head?.map Insn.address = some a)
      ↔ Begins leader insns a := by
  constructor
  · rintro ⟨g, hg, haddr⟩
    obtain ⟨j, hj, rfl⟩ := Option.map_eq_some_iff.mp haddr
    obtain ⟨rest, rfl⟩ := List.head?_eq_some_iff.mp hj
    obtain ⟨pre, post, hinsns, -, -, hsplit, -⟩ := splitBy_part hg
    refine ⟨pre, j, rest ++ post, by simpa using hinsns, rfl, ?_⟩
    by_cases hlead : leader j.address = true
    · exact .inl hlead
    · exact .inr fun k hk => by simpa [joined, hlead] using hsplit k hk j rfl
  · rintro ⟨pre, j, post, rfl, rfl, hbegin⟩
    obtain ⟨g, hg, hhead⟩ := @exists_head_splitBy _ (joined leader) pre post j fun k hk => by
        rcases hbegin with hlead | hterm
        · simp [joined, hlead]
        · simp [joined, hterm k hk]
    exact ⟨g, hg, by rw [hhead, Option.map_some]⟩

end

section
variable {symbolName : ℕ → Option String}
  {findRetJumps : List Insn → InsnMap → ℕ → List (ℕ × ℕ)}
  {global : InsnMap} {entry : ℕ} {allEntries : ℕ → Bool} {jumpTables : JumpTables}
  {prologueOnly : ℕ → Bool} {f : Function} {insns : List Insn}

private theorem blocks_eq
    (h : buildFunction symbolName findRetJumps global entry allEntries jumpTables prologueOnly
      = some f)
    (hinsns : functionInsns findRetJumps global entry allEntries jumpTables prologueOnly = insns) :
    f.blocks = ((insns.splitBy (joined (leaders jumpTables entry insns).contains)).flatMap
      blockOf).map (attachTables jumpTables insns) := by
  rw [buildFunction] at h
  split_ifs at h
  obtain rfl := Option.some.inj h
  simp only [hinsns, splitBlocks_eq]

private theorem part_of_block
    (hf : f.blocks = ((insns.splitBy (joined (leaders jumpTables entry insns).contains)).flatMap
      blockOf).map (attachTables jumpTables insns)) {b : BasicBlock} (hb : b ∈ f.blocks) :
    b.insns ∈ insns.splitBy (joined (leaders jumpTables entry insns).contains) ∧
      b.insns.head?.map Insn.address = some b.start ∧
      ∃ last, b.insns.getLast? = some last ∧ b.terminator = last.flow ∧
        (last.flow ≠ .indirect → b.successors = flowSuccessors last) := by
  obtain ⟨c, hc, rfl⟩ := List.mem_map.mp (hf ▸ hb)
  obtain ⟨g, hg, hcg⟩ := List.mem_flatMap.mp hc
  obtain ⟨rfl, hhead, last, hlast, hterm, hsucc⟩ := mem_blockOf hcg
  rw [attachTables_insns, attachTables_start, attachTables_terminator]
  refine ⟨hg, hhead, last, hlast, hterm, fun hne => ?_⟩
  rw [attachTables]
  split
  · rename_i h1 _
    exact absurd (hterm.symm.trans h1) hne
  · exact hsucc

private theorem block_of_part
    (hf : f.blocks = ((insns.splitBy (joined (leaders jumpTables entry insns).contains)).flatMap
      blockOf).map (attachTables jumpTables insns)) {g : List Insn}
    (hg : g ∈ insns.splitBy (joined (leaders jumpTables entry insns).contains)) :
    ∃ b ∈ f.blocks, b.insns = g := by
  obtain ⟨last, hlast⟩ := Option.isSome_iff_exists.mp
    (List.getLast?_isSome.mpr (List.ne_nil_of_mem_splitBy hg))
  obtain ⟨b, hb, hbg⟩ := exists_mem_blockOf hlast
  refine ⟨attachTables jumpTables insns b, ?_, by rw [attachTables_insns, hbg]⟩
  rw [hf]
  exact List.mem_map_of_mem (List.mem_flatMap.mpr ⟨g, hg, hb⟩)

private theorem exists_start_iff_begins
    (hf : f.blocks = ((insns.splitBy (joined (leaders jumpTables entry insns).contains)).flatMap
      blockOf).map (attachTables jumpTables insns)) {a : ℕ} :
    (∃ c ∈ f.blocks, c.start = a) ↔ Begins (leaders jumpTables entry insns).contains insns a := by
  rw [← exists_part_iff_begins]
  constructor
  · rintro ⟨c, hc, rfl⟩
    obtain ⟨hpart, hstart, -⟩ := part_of_block hf hc
    exact ⟨c.insns, hpart, hstart⟩
  · rintro ⟨g, hg, haddr⟩
    obtain ⟨c, hc, rfl⟩ := block_of_part hf hg
    obtain ⟨-, hstart, -⟩ := part_of_block hf hc
    exact ⟨c, hc, Option.some.inj (hstart.symm.trans haddr)⟩

private theorem begins_of_leadersOf {i : Insn} {a : ℕ} (hi : i ∈ insns)
    (ha : a ∈ leadersOf jumpTables insns i) (hhas : hasInsn insns a = true) :
    Begins (leaders jumpTables entry insns).contains insns a := by
  obtain ⟨j, hj, rfl⟩ := hasInsn_iff.mp hhas
  obtain ⟨pre, post, hsplit⟩ := List.append_of_mem hj
  refine ⟨pre, j, post, hsplit, rfl, .inl ?_⟩
  rw [List.contains_iff_mem]
  exact List.mem_cons_of_mem _ (List.mem_flatMap.mpr ⟨i, hi, ha⟩)

private theorem mem_leadersOf {i : Insn} {a : ℕ} (hterm : i.flow.terminates = true)
    (ha : a ∈ flowSuccessors i) (hhas : hasInsn insns a = true) :
    a ∈ leadersOf jumpTables insns i := by
  rw [flowSuccessors] at ha
  rw [leadersOf]
  cases hflow : i.flow with
  | fallthrough => simp [hflow, Flow.terminates] at hterm
  | call => simp [hflow, Flow.terminates] at hterm
  | condJump =>
    rw [hflow] at ha
    rcases List.mem_append.mp ha with ha | ha
    · exact List.mem_append_left _ (List.mem_filter.mpr ⟨ha, hhas⟩)
    · exact List.mem_append_right _ (List.mem_filter.mpr ⟨ha, hhas⟩)
  | jump =>
    rw [hflow] at ha
    exact List.mem_append_left _ (List.mem_filter.mpr ⟨ha, hhas⟩)
  | ret => simp [hflow] at ha
  | indirect => simp [hflow] at ha
  | interrupt => simp [hflow] at ha

private theorem flowSuccessors_of_not_terminates {i : Insn} (h : i.flow.terminates = false) :
    i.flow ≠ .indirect ∧ flowSuccessors i = [i.nextAddr] := by
  rw [flowSuccessors]
  cases hflow : i.flow <;> simp [hflow, Flow.terminates] at h ⊢

end

section
variable {symbolName : ℕ → Option String}
  {findRetJumps : List Insn → InsnMap → ℕ → List (ℕ × ℕ)}
  {global : InsnMap} {entry : ℕ} {allEntries : ℕ → Bool} {jumpTables : JumpTables}
  {prologueOnly : ℕ → Bool} {f : Function} {insns : List Insn}

private theorem straight_of_lined {leader : ℕ → Bool} (hlined : Lined leader insns)
    {g : List Insn} (hg : g ∈ insns.splitBy (joined leader)) :
    g.IsChain fun i j => i.flow.terminates = false ∧ j.address = i.nextAddr := by
  obtain ⟨ms, ms', hinsns, -, hchain, -⟩ := splitBy_part hg
  rw [List.isChain_iff_forall_rel_of_append_cons_cons] at hchain ⊢
  intro i j pre post hpair
  have hjoin : i.flow.terminates = false ∧ leader j.address = false := by
    simpa [joined] using hchain hpair
  obtain ⟨hflow, hlead⟩ := hjoin
  have hat : insns = (ms ++ pre) ++ i :: (j :: post ++ ms') := by simp [hinsns, hpair]
  refine ⟨hflow, ?_⟩
  rcases hlined _ _ _ hat hflow with hnext | ⟨hall, -⟩
  · simpa using hnext
  · simp [hall j rfl] at hlead

private theorem begins_of_lined {leader : ℕ → Bool} (hlined : Lined leader insns)
    {g : List Insn} (hg : g ∈ insns.splitBy (joined leader)) {i : Insn}
    (hi : g.getLast? = some i) (hflow : i.flow.terminates = false)
    (hhas : hasInsn insns i.nextAddr = true) : Begins leader insns i.nextAddr := by
  obtain ⟨ms, ms', hinsns, -, -, -, hnext⟩ := splitBy_part hg
  obtain ⟨init, rfl⟩ := List.getLast?_eq_some_iff.mp hi
  have hat : insns = (ms ++ init) ++ i :: ms' := by simp [hinsns]
  rcases hlined _ _ _ hat hflow with hhead | ⟨-, hbegin⟩
  · obtain ⟨j, hj, haddr⟩ := Option.map_eq_some_iff.mp hhead
    obtain ⟨g', hg', hstart⟩ := hnext j hj
    exact exists_part_iff_begins.mp ⟨g', hg', by rw [hstart, Option.map_some, haddr]⟩
  · exact hbegin hhas

/-- **The blocks are well formed just when the instructions line up**: one that falls
through is followed by the one it falls through to, or else by a leader, and then a
block begins where it falls through to. -/
theorem buildFunction_formed_iff
    (h : buildFunction symbolName findRetJumps global entry allEntries jumpTables prologueOnly
      = some f)
    (hinsns : functionInsns findRetJumps global entry allEntries jumpTables prologueOnly = insns) :
    f.Formed insns ↔ Lined (leaders jumpTables entry insns).contains insns := by
  have hf := blocks_eq h hinsns
  constructor
  · intro hformed pre i post hat hflow
    obtain ⟨hne, hsucc⟩ := flowSuccessors_of_not_terminates hflow
    by_cases hjoin : ∃ j ∈ post.head?, joined (leaders jumpTables entry insns).contains i j = true
    · -- the two stand in one block, which is straight
      obtain ⟨j, hj, hjoin⟩ := hjoin
      obtain ⟨rest, rfl⟩ := List.head?_eq_some_iff.mp hj
      obtain ⟨g, hg, l, r, hpair⟩ := @exists_infix_splitBy _ _ pre rest _ _ hjoin
      rw [← hat] at hg
      obtain ⟨b, hb, rfl⟩ := block_of_part hf hg
      have hchain := hformed.straight b hb
      rw [List.isChain_iff_forall_rel_of_append_cons_cons] at hchain
      have hnext := hchain (show b.insns = l ++ i :: j :: r by rw [← hpair]; simp)
      exact .inl (by rw [List.head?_cons, Option.map_some, hnext.2])
    · -- the block ends here, and its successor is where `i` falls through to
      have hcut : ∀ j ∈ post.head?, (leaders jumpTables entry insns).contains j.address = true := by
        intro j hj
        by_contra hlead
        exact hjoin ⟨j, hj, by simp only [joined, hflow, Bool.not_eq_true _ ▸ hlead]; rfl⟩
      refine .inr ⟨hcut, fun hhas => ?_⟩
      obtain ⟨g, hg, hlast⟩ := @exists_getLast_splitBy _
        (joined (leaders jumpTables entry insns).contains) pre post i fun j hj => by
          simp only [joined, hcut j hj, Bool.not_true, Bool.and_false]
      rw [← hat] at hg
      obtain ⟨b, hb, rfl⟩ := block_of_part hf hg
      obtain ⟨-, -, last, hlast', -, hbsucc⟩ := part_of_block hf hb
      obtain rfl := Option.some.inj (hlast'.symm.trans hlast)
      exact (exists_start_iff_begins hf).mp
        (hformed.successors b hb _ (by simp [hbsucc hne, hsucc]) hhas)
  · intro hlined
    refine ⟨?_, fun b hb => (part_of_block hf hb).2.1,
      fun b hb => straight_of_lined hlined (part_of_block hf hb).1, fun b hb s hs hhas => ?_⟩
    · rw [hf, List.flatMap_map]
      simp only [attachTables_insns]
      rw [flatMap_blockOf, List.flatten_splitBy]
    · obtain ⟨hpart, -, last, hlast, hterm, hsucc⟩ := part_of_block hf hb
      by_cases hind : last.flow = .indirect
      · exact (buildFunction_indirect h hb (hterm.trans hind) hlast).2 s hs
      · rw [exists_start_iff_begins hf]
        rw [hsucc hind] at hs
        cases hflow : last.flow.terminates with
        | false =>
          obtain ⟨-, hnext⟩ := flowSuccessors_of_not_terminates hflow
          obtain rfl : s = last.nextAddr := by simpa [hnext] using hs
          exact begins_of_lined hlined hpart hlast hflow hhas
        | true =>
          have hmem : last ∈ insns := by
            rw [← List.flatten_splitBy (joined (leaders jumpTables entry insns).contains) insns]
            exact List.mem_flatten.mpr ⟨_, hpart, List.mem_of_getLast? hlast⟩
          exact begins_of_leadersOf hmem (mem_leadersOf hflow hs hhas) hhas

end

/-! ### A branch that skips a prefix -/

section

/-- A jump over a `lock` prefix: the prefixed instruction at `0x12` and the bare one at
`0x13` both fall through to the return at `0x16`. -/
def lockInsns : InsnMap where
  insns := [plainInsn 0x10 .condJump (some 0x13), { plainInsn 0x12 .fallthrough none with len := 4 },
    { plainInsn 0x13 .fallthrough none with len := 3 }, plainInsn 0x16 .ret none]
  sorted := by decide

/-- The function recovered at `0x10`. -/
def lockFunction : Function where
  entry := 0x10
  name := "sub_10"
  blocks := [⟨0x10, [plainInsn 0x10 .condJump (some 0x13)], [0x13, 0x12], .condJump⟩,
    ⟨0x12, [{ plainInsn 0x12 .fallthrough none with len := 4 }], [0x16], .fallthrough⟩,
    ⟨0x13, [{ plainInsn 0x13 .fallthrough none with len := 3 }, plainInsn 0x16 .ret none], [],
      .ret⟩]
  callees := []

theorem buildFunction_lock :
    buildFunction (fun _ => some "sub_10") (fun _ _ _ => []) lockInsns 0x10
      (fun a => a == 0x10) (fun _ => none) (fun _ => false) = some lockFunction := by
  rfl

theorem functionInsns_lock :
    functionInsns (fun _ _ _ => []) lockInsns 0x10 (fun a => a == 0x10) (fun _ => none)
      (fun _ => false) = lockInsns.insns := by
  rfl

theorem not_formed_lock : ¬ lockFunction.Formed lockInsns.insns := by
  intro hformed
  have hno : ¬ ∃ c ∈ lockFunction.blocks, c.start = 0x16 := by decide
  exact hno (hformed.successors _
    (List.mem_cons_of_mem _ List.mem_cons_self) 0x16 (by decide) (by decide))

/-- The two instructions do not line up. -/
theorem not_lined_lock :
    ¬ Lined (leaders (fun _ => none) 0x10 lockInsns.insns).contains lockInsns.insns := by
  intro hlined
  exact not_formed_lock
    ((buildFunction_formed_iff buildFunction_lock functionInsns_lock).mpr hlined)

/-- **A successor need not start a block**: an address that is only fallen through to
is no leader. -/
theorem not_buildFunction_formed :
    ¬ ∀ (symbolName : ℕ → Option String)
        (findRetJumps : List Insn → InsnMap → ℕ → List (ℕ × ℕ)) (global : InsnMap) (entry : ℕ)
        (allEntries : ℕ → Bool) (jumpTables : JumpTables) (prologueOnly : ℕ → Bool)
        (f : Function) (insns : List Insn),
      buildFunction symbolName findRetJumps global entry allEntries jumpTables prologueOnly
          = some f →
        functionInsns findRetJumps global entry allEntries jumpTables prologueOnly = insns →
        f.Formed insns := by
  intro h
  exact not_formed_lock (h _ _ _ _ _ _ _ _ _ buildFunction_lock functionInsns_lock)

end

end Aret
