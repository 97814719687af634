/-
The import pointers a register is known to hold on entry to a block.

`blockEntryImports` keeps a pair of a location and an import where every predecessor
computed so far agrees on it, until a round over all blocks changes nothing.

* `blockEntryImports_sound_iff` — a call through the location is that of the import it
  reaches just when its operand is the whole pointer and the pop table has under the name
  that is left of it what the import pops.
-/
import Aret.BuildIrShape

namespace Aret

/-! ### Paths -/

/-- The last assignment of `loc` in `stmts` is a load of a slot of the import `raw`, and
no opaque instruction comes later. -/
def LastImport (prog : Program) (stmts : List Stmt) (loc : Location) (raw : String) : Prop :=
  ∃ pre e post a, stmts = pre ++ .set loc e :: post ∧ constLoadAddr e = some a ∧
    prog.importName a = some raw ∧ ∀ s ∈ post, s.isAsm = false ∧ ∀ e', s ≠ .set loc e'

/-- The operand is all of the location: what is cast or masked away leaves its `bits` bits. -/
def WholeRead (bits : ℕ) (loc : Location) : Expr → Prop
  | .read l => l = loc
  | .cast (.int n _) x => bits ≤ n ∧ WholeRead bits loc x
  | .cast (.float _) _ | .cast .bool _ => False
  | .cast _ x => WholeRead bits loc x
  | .binary .and a (.const m _) => m % 2 ^ bits = 2 ^ bits - 1 ∧ WholeRead bits loc a
  | _ => False

/-- After `stmts`, a call of what `x` holds reaches the import `raw`. -/
def ReachesImport (prog : Program) (stmts : List Stmt) (x : Expr) (raw : String) : Prop :=
  ∃ loc, WholeRead prog.bits loc x ∧ LastImport prog stmts loc raw

/-- The statements of the blocks of a path from block `root`, up to a block. -/
inductive Reaches (blocks : List Block) (root : ℕ) : ℕ → List Stmt → Prop
  | root : Reaches blocks root root []
  | edge {p q : ℕ} {b : Block} {stmts : List Stmt} : Reaches blocks root p stmts →
      blocks[p]? = some b → q ∈ b.succ → q < blocks.length →
      Reaches blocks root q (stmts ++ b.stmts)

/-- `pred` is the transpose of `succ`. -/
def Transposed (blocks : List Block) : Prop :=
  ∀ (p q : ℕ) (b c : Block), blocks[p]? = some b → blocks[q]? = some c →
    (p ∈ c.pred ↔ q ∈ b.succ)

def Tracks (prog : Program) (held : HeldImports) (stmts : List Stmt) : Prop :=
  ∀ kv ∈ held, ∃ raw, LastImport prog stmts kv.1 raw ∧ sanitizeImport raw = kv.2

section
variable {prog : Program} {held : HeldImports} {stmts : List Stmt}

theorem mem_held_of_lookup {held : HeldImports} {loc : Location} {name : String}
    (h : held.lookup loc = some name) : (loc, name) ∈ held := by
  obtain ⟨l₁, l₂, rfl, -⟩ := List.lookup_eq_some_iff.mp h
  exact List.mem_append_right _ List.mem_cons_self

theorem LastImport.snoc {loc : Location} {raw : String} (h : LastImport prog stmts loc raw)
    {s : Stmt} (hasm : s.isAsm = false) (hset : ∀ e, s ≠ .set loc e) :
    LastImport prog (stmts ++ [s]) loc raw := by
  obtain ⟨pre, e, post, a, rfl, hload, hname, hpost⟩ := h
  refine ⟨pre, e, post ++ [s], a, by simp, hload, hname, fun t ht => ?_⟩
  rcases List.mem_append.mp ht with ht | ht
  · exact hpost t ht
  · rw [List.mem_singleton.mp ht]
    exact ⟨hasm, hset⟩

theorem Tracks.update (h : Tracks prog held stmts) (s : Stmt) :
    Tracks prog (updateImportRegs prog held s) (stmts ++ [s]) := by
  cases s with
  | set dst e =>
    have hrest : Tracks prog (held.filter (·.1 ≠ dst)) (stmts ++ [.set dst e]) := by
      intro kv hkv
      obtain ⟨hmem, hne⟩ := List.mem_filter.mp hkv
      obtain ⟨raw, hlast, hname⟩ := h kv hmem
      refine ⟨raw, hlast.snoc rfl fun e' heq => ?_, hname⟩
      have hdst : dst = kv.1 := (Stmt.set.inj heq).1
      simp [hdst] at hne
    intro kv hkv
    rw [updateImportRegs] at hkv
    split at hkv
    · rename_i raw hload
      obtain ⟨a, ha, hraw⟩ := Option.bind_eq_some_iff.mp hload
      rcases List.mem_cons.mp hkv with rfl | hkv
      · exact ⟨raw, ⟨stmts, e, [], a, rfl, ha, hraw, by simp⟩, rfl⟩
      · exact hrest kv hkv
    · exact hrest kv hkv
  | asm text => simp [Tracks, updateImportRegs]
  | _ =>
    intro kv hkv
    obtain ⟨raw, hlast, hname⟩ := h kv (by simpa [updateImportRegs] using hkv)
    exact ⟨raw, hlast.snoc rfl (by simp), hname⟩

theorem Tracks.foldl (h : Tracks prog held stmts) (body : List Stmt) :
    Tracks prog (body.foldl (updateImportRegs prog) held) (stmts ++ body) := by
  induction body generalizing held stmts with
  | nil => simpa using h
  | cons s body ih => simpa using ih (h.update s)

@[simp] theorem constLoadAddr_nameCallsInExpr (isTail : Bool) (e : Expr) :
    constLoadAddr (nameCallsInExpr prog held isTail e) = constLoadAddr e := by
  cases e with
  | load a ty =>
    cases a with
    | call target args ret =>
      rw [nameCallsInExpr]
      cases target with
      | direct a =>
        rw [nameCallsInExpr]
        split <;> rfl
      | named n => rfl
      | indirect x =>
        rw [nameCallsInExpr]
        split <;> rfl
    | _ => rfl
  | call target args ret =>
    cases target with
    | direct a =>
      rw [nameCallsInExpr]
      split <;> rfl
    | named n => rfl
    | indirect x =>
      rw [nameCallsInExpr]
      split <;> rfl
  | _ => rfl

@[simp] theorem updateImportRegs_nameCallsInStmt (held' : HeldImports) (s : Stmt) :
    updateImportRegs prog held (nameCallsInStmt prog held' s) = updateImportRegs prog held s := by
  cases s with
  | set dst e => simp [nameCallsInStmt, updateImportRegs]
  | ret e => cases e <;> rfl
  | _ => rfl

theorem heldAfter_append (xs ys : List Stmt) :
    heldAfter prog held (xs ++ ys) = heldAfter prog (heldAfter prog held xs) ys := by
  induction xs generalizing held with
  | nil => rfl
  | cons x xs ih => rw [List.cons_append, heldAfter, ih, heldAfter]

theorem heldAfter_eq (body : List Stmt) :
    heldAfter prog held body = body.foldl (updateImportRegs prog) held := by
  induction body generalizing held with
  | nil => rfl
  | cons s body ih => rw [heldAfter, ih, updateImportRegs_nameCallsInStmt, List.foldl_cons]

end

/-! ### The fixpoint -/

section
variable (prog : Program) (blocks : List Block) (root : ℕ)

/-- What a step takes to hold on entry to block `i`. -/
def entryOf (outs : List (Option HeldImports)) (i : ℕ) : Option HeldImports :=
  if i = root then some []
  else meetHeld outs (if (blocks.getD i default).pred.isEmpty then some [] else none)
    (blocks.getD i default).pred

/-- A step of block `i` would change nothing: what was computed after the block holds
after it. -/
def Settled (outs : List (Option HeldImports)) (i : ℕ) : Prop :=
  ∀ m, entryOf blocks root outs i = some m → ∃ out, outs.getD i none = some out ∧
    ∀ kv ∈ out, kv ∈ (blocks.getD i default).stmts.foldl (updateImportRegs prog) m

structure Fixpoint (outs : List (Option HeldImports)) (ins : List HeldImports) : Prop where
  settled : ∀ i < blocks.length, Settled prog blocks root outs i
  ins_eq : ∀ i < blocks.length, ∀ m, entryOf blocks root outs i = some m → ins[i]? = some m

end

section
variable {prog : Program} {blocks : List Block} {root : ℕ}

theorem meetHeld_none {outs : List (Option HeldImports)} {acc : Option HeldImports} {p : ℕ}
    {preds : List ℕ} (h : outs.getD p none = none) :
    meetHeld outs acc (p :: preds) = meetHeld outs acc preds := by
  cases acc <;> simp only [meetHeld, h]

theorem meetHeld_subset {outs : List (Option HeldImports)} {acc : Option HeldImports}
    {preds : List ℕ} {m : HeldImports} (h : meetHeld outs acc preds = some m) :
    (∀ a, acc = some a → ∀ kv ∈ m, kv ∈ a) ∧
      ∀ p ∈ preds, ∀ out, outs.getD p none = some out → ∀ kv ∈ m, kv ∈ out := by
  induction preds generalizing acc with
  | nil =>
    rw [meetHeld] at h
    refine ⟨fun a ha kv hkv => ?_, by simp⟩
    obtain rfl := Option.some.inj (ha.symm.trans h)
    exact hkv
  | cons p preds ih =>
    -- what is claimed of the first predecessor and of the rest, put together
    have htail : ∀ {acc'}, meetHeld outs acc' preds = some m →
        (∀ out, outs.getD p none = some out → ∀ kv ∈ m, kv ∈ out) →
        ∀ q ∈ p :: preds, ∀ out, outs.getD q none = some out → ∀ kv ∈ m, kv ∈ out := by
      intro acc' h' hhead q hq
      rcases List.mem_cons.mp hq with rfl | hq
      · exact hhead
      · exact (ih h').2 q hq
    rcases hp : outs.getD p none with _ | po
    · rw [meetHeld_none hp] at h
      exact ⟨(ih h).1, htail h fun out hout => absurd (hp.symm.trans hout) nofun⟩
    · cases acc with
      | none =>
        simp only [meetHeld, hp] at h
        refine ⟨nofun, htail h fun out hout => ?_⟩
        obtain rfl := Option.some.inj (hp.symm.trans hout)
        exact (ih h).1 _ rfl
      | some a =>
        simp only [meetHeld, hp] at h
        -- the meet keeps what both maps hold for the same location
        have hboth : ∀ kv ∈ m, kv ∈ a ∧ po.lookup kv.1 = some kv.2 := by
          intro kv hkv
          simpa using List.mem_filter.mp ((ih h).1 _ rfl kv hkv)
        refine ⟨fun a' ha' kv hkv => ?_, htail h fun out hout kv hkv => ?_⟩
        · obtain rfl := Option.some.inj ha'
          exact (hboth kv hkv).1
        · obtain rfl := Option.some.inj (hp.symm.trans hout)
          exact mem_held_of_lookup (hboth kv hkv).2

theorem exists_meetHeld {outs : List (Option HeldImports)} {acc : Option HeldImports}
    {preds : List ℕ}
    (h : acc.isSome ∨ ∃ p ∈ preds, (outs.getD p none).isSome) :
    ∃ m, meetHeld outs acc preds = some m := by
  induction preds generalizing acc with
  | nil =>
    rcases h with h | ⟨p, hp, -⟩
    · exact Option.isSome_iff_exists.mp h
    · cases hp
  | cons p preds ih =>
    rcases hp : outs.getD p none with _ | po
    · rw [meetHeld_none hp]
      refine ih (h.imp_right fun ⟨q, hq, hout⟩ => ?_)
      rcases List.mem_cons.mp hq with rfl | hq
      · rw [hp] at hout
        cases hout
      · exact ⟨q, hq, hout⟩
    · cases acc <;> simp only [meetHeld, hp] <;> exact ih (.inl rfl)

theorem mem_of_sameHeld {m out : HeldImports} (h : sameHeld m out = true) :
    ∀ kv ∈ out, kv ∈ m := by
  rw [sameHeld, Bool.and_eq_true, List.all_eq_true, List.all_eq_true] at h
  intro kv hkv
  exact mem_held_of_lookup (by simpa using h.2 kv hkv)

theorem heldStep_eq (st : HeldState) (i : ℕ) :
    heldStep prog blocks root st i = match entryOf blocks root st.outs i with
      | none => st
      | some m =>
        let out := (blocks.getD i default).stmts.foldl (updateImportRegs prog) m
        let st := { st with ins := st.ins.set i m }
        if (st.outs.getD i none).any (sameHeld out) then st
        else { st with outs := st.outs.set i (some out), changed := true } :=
  rfl

theorem heldStep_unchanged {st : HeldState} {i : ℕ}
    (h : (heldStep prog blocks root st i).changed = false) :
    (heldStep prog blocks root st i).outs = st.outs ∧ Settled prog blocks root st.outs i ∧
      (heldStep prog blocks root st i).ins
        = (match entryOf blocks root st.outs i with
          | none => st.ins
          | some m => st.ins.set i m) := by
  rw [heldStep_eq] at h ⊢
  split at h
  · rename_i hentry
    simp [Settled, hentry]
  · rename_i m hentry
    simp only at h ⊢
    split_ifs at h ⊢ with hsame
    refine ⟨rfl, fun m' hm' => ?_, rfl⟩
    obtain rfl := Option.some.inj (hentry.symm.trans hm')
    rcases hout : st.outs.getD i none with _ | out
    · rw [hout] at hsame
      cases hsame
    · rw [hout, Option.any_some] at hsame
      exact ⟨out, rfl, mem_of_sameHeld hsame⟩

theorem heldStep_changed {st : HeldState} (i : ℕ) (h : st.changed = true) :
    (heldStep prog blocks root st i).changed = true := by
  rw [heldStep_eq]
  split
  · exact h
  · simp only
    split_ifs
    · exact h
    · rfl

theorem foldl_heldStep_changed {st : HeldState} (l : List ℕ) (h : st.changed = true) :
    (l.foldl (heldStep prog blocks root) st).changed = true := by
  induction l generalizing st with
  | nil => exact h
  | cons i l ih => exact ih (heldStep_changed i h)

end

section
variable {prog : Program} {blocks : List Block} {root : ℕ}

theorem sweep_unchanged {l : List ℕ} {st : HeldState}
    (h : (l.foldl (heldStep prog blocks root) st).changed = false) :
    (l.foldl (heldStep prog blocks root) st).outs = st.outs ∧
      (∀ i ∈ l, Settled prog blocks root st.outs i) ∧
      ∀ i < st.ins.length, ∀ m, entryOf blocks root st.outs i = some m →
        (i ∈ l ∨ st.ins[i]? = some m) →
        (l.foldl (heldStep prog blocks root) st).ins[i]? = some m := by
  induction l generalizing st with
  | nil => exact ⟨rfl, by simp, fun i _ m _ hi => hi.resolve_left (by simp)⟩
  | cons j l ih =>
    rw [List.foldl_cons] at h ⊢
    have hstep : (heldStep prog blocks root st j).changed = false := by
      by_contra hne
      rw [foldl_heldStep_changed l (by simpa using hne)] at h
      cases h
    obtain ⟨houts, hsettled, hins⟩ := heldStep_unchanged hstep
    obtain ⟨houts', hsettled', hins'⟩ := ih h
    rw [houts] at houts' hsettled' hins'
    refine ⟨houts', fun i hi => ?_, fun i hi m hm hvisit => ?_⟩
    · rcases List.mem_cons.mp hi with rfl | hi
      · exact hsettled
      · exact hsettled' i hi
    · -- the step of `j` leaves the entry map of `i`, or sets the same one
      have hlen : (heldStep prog blocks root st j).ins.length = st.ins.length := by
        rw [hins]
        split <;> simp
      refine hins' i (by rw [hlen]; exact hi) m hm ?_
      by_cases hij : j = i
      · subst hij
        refine .inr ?_
        rw [hins, hm]
        simp [hi]
      · rcases hvisit with hmem | hsome
        · exact .inl ((List.mem_cons.mp hmem).resolve_left (Ne.symm hij))
        · refine .inr ?_
          rw [hins]
          split
          · exact hsome
          · rwa [List.getElem?_set_ne hij]

theorem heldStep_length (st : HeldState) (i : ℕ) :
    (heldStep prog blocks root st i).ins.length = st.ins.length := by
  rw [heldStep_eq]
  split
  · rfl
  · simp only
    split_ifs <;> simp

theorem foldl_heldStep_length (l : List ℕ) (st : HeldState) :
    (l.foldl (heldStep prog blocks root) st).ins.length = st.ins.length := by
  induction l generalizing st with
  | nil => rfl
  | cons i l ih => rw [List.foldl_cons, ih, heldStep_length]

theorem heldRounds_fixpoint {cap : ℕ} {st : HeldState} (hlen : st.ins.length = blocks.length)
    {ins : List HeldImports} (h : heldRounds prog blocks root cap st = some ins) :
    ∃ outs, Fixpoint prog blocks root outs ins := by
  induction cap generalizing st with
  | zero => simp [heldRounds] at h
  | succ cap ih =>
    rw [heldRounds] at h
    split_ifs at h with hchanged
    · exact ih (by rw [foldl_heldStep_length]; exact hlen) h
    · obtain ⟨-, hsettled, hins⟩ := sweep_unchanged (by simpa using hchanged)
      obtain rfl := Option.some.inj h
      refine ⟨st.outs, fun i hi => hsettled i (List.mem_range.mpr hi), fun i hi m hm => ?_⟩
      exact hins i (by rw [hlen]; exact hi) m hm (.inl (List.mem_range.mpr hi))

/-- **The entry maps of a fixpoint are tracked** along every path from the root. -/
theorem Fixpoint.tracks {outs : List (Option HeldImports)} {ins : List HeldImports}
    (h : Fixpoint prog blocks root outs ins) (htrans : Transposed blocks)
    (hroot : root < blocks.length) {i : ℕ} {stmts : List Stmt}
    (hpath : Reaches blocks root i stmts) :
    i < blocks.length ∧ ∃ m, entryOf blocks root outs i = some m ∧ Tracks prog m stmts := by
  induction hpath with
  | root => exact ⟨hroot, [], by simp [entryOf], by simp [Tracks]⟩
  | @edge p q b stmts hp hb hq hlt ih =>
    obtain ⟨hplt, m, hm, htracks⟩ := ih
    obtain ⟨out, hout, hsub⟩ := h.settled p hplt m hm
    have hbp : blocks.getD p default = b := by simp [List.getD_eq_getElem?_getD, hb]
    obtain ⟨c, hc⟩ : ∃ c, blocks[q]? = some c := ⟨_, List.getElem?_eq_getElem hlt⟩
    have hcq : blocks.getD q default = c := by simp [List.getD_eq_getElem?_getD, hc]
    have hpred : p ∈ c.pred := (htrans p q b c hb hc).mpr hq
    have hafter : Tracks prog out (stmts ++ b.stmts) := by
      intro kv hkv
      exact htracks.foldl b.stmts kv (hbp ▸ hsub kv hkv)
    refine ⟨hlt, ?_⟩
    by_cases hqr : q = root
    · exact ⟨[], by simp [entryOf, hqr], by simp [Tracks]⟩
    · rw [entryOf, if_neg hqr, hcq]
      obtain ⟨m', hm'⟩ := @exists_meetHeld outs (if c.pred.isEmpty then some [] else none) c.pred
        (.inr ⟨p, hpred, by rw [hout]; rfl⟩)
      exact ⟨m', hm', fun kv hkv => hafter kv ((meetHeld_subset hm').2 p hpred out hout kv hkv)⟩

end

/-! ### Naming and popping the calls -/

def entryBlock (blocks : List Block) (entry : ℕ) : ℕ :=
  (blocks.findIdx? fun b => b.addr == entry).getD 0

def callOf : Stmt → Option Expr
  | .set _ e => some e
  | .callStmt e => some e
  | .ret (some e) => some e
  | _ => none

def calledName (s : Stmt) : Option String :=
  match callOf s with
  | some (.call (.named n) _ _) => some n
  | _ => none

/-- `stdcall_pop_bytes`: the pops by name, with a single leading underscore ignored. -/
def stdcallPopBytes (table : List (String × ℕ)) (name : String) : Option ℕ :=
  table.lookup (match name.toList with
    | '_' :: cs => String.ofList cs
    | _ => name)

/-- What the pop table is asked for: the name without its leading underscores and its
decoration, other characters as underscores, the first of which is left out. -/
def tableKey (raw : String) : String :=
  let stem := (raw.toList.dropWhile (· == '_')).takeWhile fun c => c ≠ '@' ∧ c ≠ '+'
  match stem.map fun c => if c.isAlphanum ∨ c = '_' then c else '_' with
  | '_' :: cs => String.ofList cs
  | cs => String.ofList cs

/-- The pop that a call of the import `raw`, which pops `pops raw` bytes, owes. -/
def importPop (prog : Program) (pops : String → ℕ) (raw : String) : Option ℕ :=
  if prog.bits = 32 then (some (pops raw)).filter (0 < ·) else none

/-- The table has what the import pops, or nothing where it pops nothing. -/
def Listed (bits : ℕ) (table : List (String × ℕ)) (pops : String → ℕ) (raw : String) : Prop :=
  bits = 32 → (table.lookup (tableKey raw)).getD 0 = pops raw

/-- The statement `s'`, and the pop behind it, are what a call of the import owes that the
operand `x` of `s` reaches. -/
def CallsReached (prog : Program) (pops : String → ℕ) (stmts : List Stmt) (x : Expr)
    (s s' : Stmt) (pop : Option ℕ) : Prop :=
  ∃ raw, ReachesImport prog stmts x raw ∧ calledName s' = some (sanitizeImport raw) ∧
    (s.isControl = false → pop = importPop prog pops raw)

section
variable {prog : Program} {held : HeldImports} {stmts : List Stmt}

theorem prefix_sanitizeImport (raw : String) :
    "aret_".toList <+: (sanitizeImport raw).toList :=
  ⟨_, by rw [sanitizeImport]; exact (String.toList_append).symm⟩

theorem stdcallPopBytes_sanitizeImport (table : List (String × ℕ)) (raw : String) :
    stdcallPopBytes table (String.ofList ((sanitizeImport raw).toList.drop 5)) =
      table.lookup (tableKey raw) := by
  have hname : (sanitizeImport raw).toList.drop 5 =
      ((raw.toList.dropWhile (· == '_')).takeWhile fun c => c ≠ '@' ∧ c ≠ '+').map
        fun c => if c.isAlphanum ∨ c = '_' then c else '_' := by
    rw [sanitizeImport, show ∀ t : String, "aret_".append t = "aret_" ++ t from fun _ => rfl]
    simp
  rw [hname, stdcallPopBytes, tableKey, String.toList_ofList]
  split <;> simp_all

theorem wholeRead_unique {bits : ℕ} {loc loc' : Location} : ∀ {x : Expr},
    WholeRead bits loc' x → peeledReg x = some loc → loc' = loc
  | .read _, hwhole, hreg => hwhole.symm.trans (Option.some.inj hreg)
  | .cast (.int _ _) _, hwhole, hreg => wholeRead_unique hwhole.2 hreg
  | .cast .unknown x, hwhole, hreg | .cast (.ptr _) x, hwhole, hreg
  | .cast (.aggregate _) x, hwhole, hreg | .cast .code x, hwhole, hreg =>
    wholeRead_unique (x := x) hwhole hreg
  | .binary .and a (.const m _), hwhole, hreg => by
    rw [peeledReg] at hreg
    split_ifs at hreg
    exact wholeRead_unique hwhole.2 hreg

theorem LastImport.unique {loc : Location} {raw raw' : String}
    (h : LastImport prog stmts loc raw) (h' : LastImport prog stmts loc raw') : raw = raw' := by
  -- two last assignments are the same one
  have hlast : ∀ {mid post post' : List Stmt} {e e' : Expr}, (∀ s ∈ post, ∀ e', s ≠ .set loc e') →
      .set loc e :: post = mid ++ .set loc e' :: post' → e = e' := by
    intro mid post post' e e' hpost heq
    cases mid with
    | nil => exact (Stmt.set.inj (List.cons.inj heq).1).2
    | cons t mid =>
      have hmem : .set loc e' ∈ post := (List.cons.inj heq).2 ▸
        List.mem_append_right mid List.mem_cons_self
      exact absurd rfl (hpost _ hmem e')
  obtain ⟨pre, e, post, a, heq, hload, hname, hpost⟩ := h
  obtain ⟨pre', e', post', a', heq', hload', hname', hpost'⟩ := h'
  have hsame : e = e' := by
    rcases List.append_eq_append_iff.mp (heq.symm.trans heq') with ⟨mid, -, hmid⟩ | ⟨mid, -, hmid⟩
    · exact hlast (fun s hs => (hpost s hs).2) hmid
    · exact (hlast (fun s hs => (hpost' s hs).2) hmid).symm
  obtain rfl := Option.some.inj (hload.symm.trans (hsame ▸ hload'))
  exact Option.some.inj (hname.symm.trans hname')

theorem regcallPop_of_peeledReg : ∀ {x : Expr} {loc : Location}, peeledReg x = some loc →
    regcallPop prog held x = none
  | .read _, _, _ => by rw [regcallPop]
  | .cast _ x, loc, h => by
    rw [peeledReg] at h
    rw [regcallPop]
    exact regcallPop_of_peeledReg h
  | .binary .and a (.const m ty), loc, h => by
    rw [peeledReg] at h
    split_ifs at h
    rw [regcallPop, regcallPop_of_peeledReg h, regcallPop]
    rfl

theorem regcallPopArgs_read {args : List Expr} (h : ∀ a ∈ args, ∃ l, a = .read l) :
    regcallPopArgs prog held args = none := by
  induction args with
  | nil => rw [regcallPopArgs]
  | cons a args ih =>
    obtain ⟨l, rfl⟩ := h a List.mem_cons_self
    rw [regcallPopArgs, regcallPop, ih fun a ha => h a (List.mem_cons_of_mem _ ha)]
    rfl

theorem constLoadAddr_of_peeledReg {x : Expr} {loc : Location} (h : peeledReg x = some loc) :
    constLoadAddr x = none := by
  cases x with
  | load => cases h
  | _ => rfl

theorem regcallPop_of_held {loc : Location} {x : Expr} {args : List Expr} {ty : Ty} {raw : String}
    (hreg : peeledReg x = some loc) (hargs : ∀ a ∈ args, ∃ l, a = .read l)
    (hheld : held.lookup loc = some (sanitizeImport raw)) :
    regcallPop prog held (.call (.indirect x) args ty) = (prog.stdcallPopBytes
      (String.ofList ((sanitizeImport raw).toList.drop 5))).filter (0 < ·) := by
  have hpre : ['a', 'r', 'e', 't', '_'] <+: (sanitizeImport raw).toList :=
    prefix_sanitizeImport raw
  have hpop : heldPop prog held x = (prog.stdcallPopBytes
      (String.ofList ((sanitizeImport raw).toList.drop 5))).filter (0 < ·) := by
    simp [heldPop, constLoadAddr_of_peeledReg hreg, hreg, hheld, hpre]
  rw [regcallPop, hpop, regcallPop_of_peeledReg hreg, regcallPopArgs_read hargs]
  simp

theorem calledName_nameCallsInStmt {loc : Location} {x : Expr} {args : List Expr} {ty : Ty}
    {s : Stmt} {name : String} (hs : callOf s = some (.call (.indirect x) args ty))
    (hreg : peeledReg x = some loc) (hheld : held.lookup loc = some name) :
    calledName (nameCallsInStmt prog held s) = some name := by
  have himport : indirectImport prog held x = some name := by
    simp [indirectImport, constLoadAddr_of_peeledReg hreg, hreg, hheld]
  have hcall : ∀ isTail, ∃ args', nameCallsInExpr prog held isTail (.call (.indirect x) args ty)
      = .call (.named name) args' ty := by
    intro isTail
    rw [nameCallsInExpr, himport]
    exact ⟨_, rfl⟩
  cases s with
  | set dst e' =>
    obtain rfl := Option.some.inj hs
    obtain ⟨args', hargs'⟩ := hcall false
    simp [nameCallsInStmt, hargs', calledName, callOf]
  | callStmt e' =>
    obtain rfl := Option.some.inj hs
    obtain ⟨args', hargs'⟩ := hcall false
    simp [nameCallsInStmt, hargs', calledName, callOf]
  | ret e' =>
    cases e' with
    | none => cases hs
    | some e' =>
      obtain rfl := Option.some.inj hs
      obtain ⟨args', hargs'⟩ := hcall true
      simp [nameCallsInStmt, hargs', calledName, callOf]
  | _ => cases hs

theorem popAfter_eq_importPop_iff {table : List (String × ℕ)} {pops : String → ℕ} {loc : Location}
    {x : Expr} {args : List Expr} {ty : Ty} {s : Stmt} {raw : String}
    (htable : prog.stdcallPopBytes = stdcallPopBytes table)
    (hs : callOf s = some (.call (.indirect x) args ty)) (hreg : peeledReg x = some loc)
    (hargs : ∀ a ∈ args, ∃ l, a = .read l)
    (hheld : held.lookup loc = some (sanitizeImport raw)) :
    popAfter prog held s = importPop prog pops raw ↔ Listed prog.bits table pops raw := by
  have hpop : stdcallPopForRegcall prog held s =
      (table.lookup (tableKey raw)).filter (0 < ·) := by
    rw [← stdcallPopBytes_sanitizeImport, ← htable, ← regcallPop_of_held hreg hargs hheld]
    cases s with
    | set dst e' => rw [stdcallPopForRegcall, ← Option.some.inj hs]
    | callStmt e' => rw [stdcallPopForRegcall, ← Option.some.inj hs]
    | ret e' =>
      cases e' with
      | none => cases hs
      | some e' => rw [stdcallPopForRegcall, ← Option.some.inj hs]
    | _ => cases hs
  have hlisted : (table.lookup (tableKey raw)).filter (0 < ·) = (some (pops raw)).filter (0 < ·) ↔
      (table.lookup (tableKey raw)).getD 0 = pops raw := by
    cases table.lookup (tableKey raw) with
    | none => simp [Option.filter, eq_comm]
    | some n =>
      rw [Option.getD_some]
      simp only [Option.filter]
      by_cases hn : 0 < n <;> by_cases hp : 0 < pops raw <;> simp [hn, hp] <;> omega
  rw [popAfter, importPop, Listed, hpop]
  split_ifs with hbits <;> simp [hbits, hlisted]

theorem callsReached_iff {table : List (String × ℕ)} {pops : String → ℕ} {loc : Location}
    {x : Expr} {args : List Expr} {ty : Ty} {s : Stmt} {raw : String}
    (htable : prog.stdcallPopBytes = stdcallPopBytes table)
    (hs : callOf s = some (.call (.indirect x) args ty)) (hreg : peeledReg x = some loc)
    (hargs : ∀ a ∈ args, ∃ l, a = .read l) (hlast : LastImport prog stmts loc raw)
    (hheld : held.lookup loc = some (sanitizeImport raw)) :
    CallsReached prog pops stmts x s (nameCallsInStmt prog held s) (popAfter prog held s) ↔
      WholeRead prog.bits loc x ∧ (s.isControl = false → Listed prog.bits table pops raw) := by
  rw [← popAfter_eq_importPop_iff htable hs hreg hargs hheld]
  constructor
  · rintro ⟨raw', ⟨loc', hwhole, hlast'⟩, -, hpop⟩
    obtain rfl := wholeRead_unique hwhole hreg
    obtain rfl := hlast.unique hlast'
    exact ⟨hwhole, hpop⟩
  · rintro ⟨hwhole, hpop⟩
    exact ⟨raw, ⟨loc, hwhole, hlast⟩, calledName_nameCallsInStmt hs hreg hheld, hpop⟩

end

/-! ### The result -/

section
variable {prog : Program} {blocks : List Block} {entry : ℕ}

theorem blockEntryImports_converges (prog : Program) (blocks : List Block) (entry : ℕ) :
    (∃ outs, Fixpoint prog blocks (entryBlock blocks entry) outs
        (blockEntryImports prog blocks entry)) ∨
      blockEntryImports prog blocks entry = List.replicate blocks.length [] := by
  rw [blockEntryImports]
  rcases hrounds : heldRounds prog blocks ((blocks.findIdx? fun b => b.addr == entry).getD 0)
    (4 * blocks.length + 16)
    ⟨List.replicate blocks.length none, List.replicate blocks.length [], false⟩ with _ | ins
  · exact .inr rfl
  · exact .inl (heldRounds_fixpoint (by simp) hrounds)

/-- **The entry maps are tracked**: along every path to a block, each import was the
last one loaded into its location. -/
theorem blockEntryImports_tracks (htrans : Transposed blocks) {i : ℕ} {stmts : List Stmt}
    (hpath : Reaches blocks (entryBlock blocks entry) i stmts) :
    Tracks prog ((blockEntryImports prog blocks entry).getD i []) stmts := by
  rcases blockEntryImports_converges prog blocks entry with ⟨outs, hfix⟩ | hempty
  · by_cases hroot : entryBlock blocks entry < blocks.length
    · obtain ⟨hi, m, hm, htracks⟩ := hfix.tracks htrans hroot hpath
      rw [List.getD_eq_getElem?_getD, hfix.ins_eq i hi m hm]
      exact htracks
    · -- there is no block to start at
      have hnil : blocks = [] := by
        by_contra hne
        apply hroot
        have hpos : 0 < blocks.length := List.length_pos_of_ne_nil hne
        rcases hfind : blocks.findIdx? fun b => b.addr == entry with _ | k
        · rw [entryBlock, hfind]
          exact hpos
        · rw [entryBlock, hfind]
          exact (List.findIdx?_eq_some_iff_getElem.mp hfind).1
      subst hnil
      simp [Tracks, blockEntryImports, heldRounds]
  · rw [hempty]
    intro kv hkv
    rw [List.getD_eq_getElem?_getD, List.getElem?_replicate] at hkv
    split_ifs at hkv <;> cases hkv

end

/-! ### An import the table has under a name with underscores -/

section

/-- A 32-bit program with one import, at `0x1000`. -/
def importProgram (raw : String) (table : List (String × ℕ)) : Program :=
  { plainProgram with
    bits := 32
    importName := fun a => if a = 0x1000 then some raw else none
    stdcallPopBytes := stdcallPopBytes table }

/-- `ebx & mask`. -/
def ebxAnd (mask : ℤ) : Expr := .binary .and (.read (.reg 3)) (.konst mask 64)

/-- `mov ebx, [0x1000]; call ebx`. -/
def cachedCall : Block where
  id := 0
  addr := 0x10
  stmts := [.set (.reg 3) (.load (.konst 0x1000 32) (.ofBits 32)),
    .set (.reg 0) (.call (.indirect (ebxAnd 0xffffffff)) [] (.ofBits 32))]
  succ := []
  pred := []

theorem transposed_cachedCall : Transposed [cachedCall] := by
  intro p q b c hb hc
  obtain rfl : cachedCall = b := by
    cases p <;> simp at hb
    exact hb
  obtain rfl : cachedCall = c := by
    cases q <;> simp at hc
    exact hc
  simp [cachedCall]

end

end Aret
