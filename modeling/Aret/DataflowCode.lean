/-
Where the lines of a function end up.

`propagate` parses the line that it rewrites anew, which loses the block the line
came from: the new line counts as one of block 0.

* `optimize_files_iff` — when every line is filed under its block.
-/
import Aret.DataflowChains
import Aret.DataflowLive
import Aret.DataflowRun

namespace Aret
namespace Dataflow

abbrev Traced := List (Stmt × ℕ)

def Tagged (x : Traced) : Prop := ∀ l ∈ x, l.1.origin = l.2

/-- What `dce` leaves. -/
def afterDce (liveOut : Finset RegFamily) (x : Traced) : Traced :=
  retain x (dceMarks (x.map Prod.fst) liveOut).1

def afterRound (liveOut : Finset RegFamily) (x : Traced) : Traced :=
  let y := afterDce liveOut x
  match inline? (y.map Prod.fst) liveOut with
  | none => y
  | some (i, p, text) => (y.modify p fun l => (parseStmt text, l.2)).eraseIdx i

/-! ### Rounds -/

theorem retain_map {α β : Type} (g : α → β) (xs : List α) (remove : List Bool) :
    (retain xs remove).map g = retain (xs.map g) remove := by
  induction xs generalizing remove with
  | nil => rfl
  | cons x xs ih =>
    cases remove with
    | nil => rfl
    | cons r remove =>
      have hrest := ih remove
      rw [retain, retain] at hrest ⊢
      cases r with
      | true => exact hrest
      | false => exact congrArg (g x :: ·) hrest

theorem retain_sublist {α : Type} (xs : List α) (remove : List Bool) :
    (retain xs remove).Sublist xs := by
  induction xs generalizing remove with
  | nil => exact .refl []
  | cons x xs ih =>
    cases remove with
    | nil => exact List.nil_sublist _
    | cons r remove =>
      cases r with
      | true => exact (ih remove).cons x
      | false => exact (ih remove).cons_cons x

theorem retain_of_unmarked {α : Type} {xs : List α} {remove : List Bool}
    (hlen : remove.length = xs.length) (h : remove.any id = false) : retain xs remove = xs := by
  induction xs generalizing remove with
  | nil => rfl
  | cons x xs ih =>
    cases remove with
    | nil => cases hlen
    | cons r remove =>
      obtain ⟨hr, hrest⟩ := Bool.or_eq_false_iff.mp h
      obtain rfl : r = false := hr
      exact congrArg (x :: ·) (ih (Nat.succ.inj hlen) hrest)

theorem length_dceMarks (block : List Stmt) (liveOut : Finset RegFamily) :
    (dceMarks block liveOut).1.length = block.length := by
  induction block with
  | nil => rfl
  | cons s block ih => exact congrArg (· + 1) ih

theorem afterDce_map (liveOut : Finset RegFamily) (x : Traced) :
    (afterDce liveOut x).map Prod.fst = (dce (x.map Prod.fst) liveOut).1 := by
  rw [afterDce, retain_map]
  rfl

theorem afterRound_map (liveOut : Finset RegFamily) (x : Traced) :
    (afterRound liveOut x).map Prod.fst
      = (propagate (dce (x.map Prod.fst) liveOut).1 liveOut).1 := by
  rw [afterRound, propagate, ← afterDce_map]
  cases inline? ((afterDce liveOut x).map Prod.fst) liveOut with
  | none => rfl
  | some r =>
    obtain ⟨i, p, text⟩ := r
    dsimp only
    have herase : ∀ y : Traced, (y.eraseIdx i).map Prod.fst = (y.map Prod.fst).eraseIdx i := by
      intro y
      rw [List.eraseIdx_eq_take_drop_succ, List.eraseIdx_eq_take_drop_succ, List.map_append,
        List.map_take, List.map_drop]
    rw [herase]
    refine congrArg (List.eraseIdx · i) (List.ext_getElem? fun k => ?_)
    rw [List.getElem?_map, List.getElem?_modify, List.getElem?_set, List.getElem?_map]
    by_cases hpk : p = k
    · subst hpk
      by_cases hp : p < (afterDce liveOut x).length
      · simp [hp]
      · simp [hp]
    · simp [hpk]

theorem afterRound_of_unchanged {liveOut : Finset RegFamily} {x : Traced}
    (hdce : (dce (x.map Prod.fst) liveOut).2 = false)
    (hprop : (propagate (dce (x.map Prod.fst) liveOut).1 liveOut).2 = false) :
    afterRound liveOut x = x := by
  have hlen : (dceMarks (x.map Prod.fst) liveOut).1.length = x.length := by
    rw [length_dceMarks, List.length_map]
  have hsame : afterDce liveOut x = x := retain_of_unmarked hlen hdce
  rw [← afterDce_map, propagate] at hprop
  rw [afterRound]
  cases hinl : inline? ((afterDce liveOut x).map Prod.fst) liveOut with
  | none => exact hsame
  | some r =>
    rw [hinl] at hprop
    cases hprop

theorem cleanChain_eq (liveOut : Finset RegFamily) (k : ℕ) (x : Traced) :
    cleanChain liveOut k (x.map Prod.fst) = ((afterRound liveOut)^[k] x).map Prod.fst := by
  induction k generalizing x with
  | zero => rfl
  | succ k ih =>
    rw [cleanChain, Function.iterate_succ_apply]
    split_ifs with hstop
    · simp only [Bool.and_eq_true, Bool.not_eq_true'] at hstop
      have hsame := afterRound_of_unchanged hstop.1 hstop.2
      have hfix : ∀ n, (afterRound liveOut)^[n] x = x := fun n =>
        Function.iterate_fixed hsame n
      rw [← afterRound_map, hsame, hfix k]
    · rw [← afterRound_map, ih]

/-! ### Tags -/

theorem origin_parseStmt (text : Text) : (parseStmt text).origin = 0 :=
  (parseStmt_shape text).text_origin.2

theorem scanUses_ge {name : Text} {fam : RegFamily} {j p n : ℕ} {block : List Stmt}
    (h : scanUses name fam j block = (some p, n)) : j ≤ p := by
  induction block generalizing j n with
  | nil => cases h
  | cons s block ih =>
    rw [scanUses] at h
    obtain ⟨hp, -⟩ := Prod.mk.inj h
    by_cases hhere : 0 < countWord s.text name
    · rw [if_pos hhere] at hp
      exact (Option.some.inj hp).le
    · rw [if_neg hhere] at hp
      split_ifs at hp with hend
      have hrest := ih (Prod.ext hp rfl)
      omega

theorem inline?_some {block : List Stmt} {liveOut : Finset RegFamily} {i p : ℕ} {text : Text}
    (h : inline? block liveOut = some (i, p, text)) : i < p ∧ p < block.length := by
  rw [inline?] at h
  obtain ⟨i', -, hi'⟩ := List.exists_of_findSome?_eq_some h
  obtain ⟨⟨p', text'⟩, hat, heq⟩ := Option.map_eq_some_iff.mp hi'
  simp only [Prod.mk.injEq] at heq
  obtain ⟨rfl, rfl, rfl⟩ := heq
  rw [inlineAt?] at hat
  split at hat
  · cases hat
  · split at hat
    · split at hat
      · cases hat
      · split at hat
        · rename_i q hscan
          split at hat
          · cases hat
          · obtain ⟨t, ht, heq⟩ := Option.map_eq_some_iff.mp hat
            obtain ⟨rfl, -⟩ := Prod.mk.inj heq
            exact ⟨Nat.lt_of_succ_le (scanUses_ge hscan), (List.getElem?_eq_some_iff.mp ht).1⟩
        · cases hat
    · cases hat

theorem tagged_afterRound {liveOut : Finset RegFamily} {x : Traced} (h : Tagged x) :
    Tagged (afterRound liveOut x) ↔ ∀ i p text l,
      inline? ((afterDce liveOut x).map Prod.fst) liveOut = some (i, p, text) →
      (afterDce liveOut x)[p]? = some l → l.2 = 0 := by
  have hdce : Tagged (afterDce liveOut x) := fun l hl => h l ((retain_sublist _ _).subset hl)
  rw [afterRound]
  cases hinl : inline? ((afterDce liveOut x).map Prod.fst) liveOut with
  | none => exact ⟨fun _ => nofun, fun _ => hdce⟩
  | some r =>
    obtain ⟨i, p, text⟩ := r
    obtain ⟨hip, hp⟩ := inline?_some hinl
    rw [List.length_map] at hp
    dsimp only
    constructor
    · intro htag i' p' text' l heq hl
      simp only [Option.some.injEq, Prod.mk.injEq] at heq
      obtain ⟨rfl, rfl, rfl⟩ := heq
      -- The new line is still there, as the definition is another.
      have hnew : (parseStmt text, l.2) ∈
          ((afterDce liveOut x).modify p fun l => (parseStmt text, l.2)).eraseIdx i := by
        refine List.mem_eraseIdx_iff_getElem?.mpr ⟨p, by omega, ?_⟩
        simp [hl]
      rw [← htag _ hnew, origin_parseStmt]
    · intro hfirst l hl
      obtain ⟨k, -, hk⟩ := List.mem_eraseIdx_iff_getElem?.mp hl
      rw [List.getElem?_modify] at hk
      obtain ⟨l', hl', rfl⟩ := Option.map_eq_some_iff.mp hk
      split_ifs with hpk
      · subst hpk
        rw [origin_parseStmt, hfirst i p text l' rfl hl']
      · exact hdce l' (List.mem_of_getElem? hl')

/-! ### The lines of a chain -/

namespace Prepared

variable (f : Prepared)

def stage (chain : List ℕ) (k : ℕ) : Traced :=
  let x := chain.flatMap fun b => (f.stmts.getD b []).map fun s => (s, b)
  if chain.any f.keepAll then x else (afterRound (f.liveAfter chain))^[k] x

def linesLeft (chain : List ℕ) : List (Text × ℕ) :=
  let retreg := if f.bits64 then "rax".toList else "eax".toList
  (bindCallResults retreg ((f.stage chain 4).map fun l => l.1.text) (f.liveAfter chain)).zip
    ((f.stage chain 4).map Prod.snd)

abbrev chainList : List (List ℕ) := chains f.succ f.keepAll

/-- After every round each line has the tag of the block that it came from, and the code map
has it there, in order. -/
structure Filed : Prop where
  tagged : ∀ c ∈ f.chainList, ∀ k ≤ 4, Tagged (f.stage c k)
  code : ∀ c ∈ f.chainList, ∀ b ∈ c, ((f.block b).start,
    ((f.linesLeft c).filter (·.2 == b)).map Prod.fst, (f.block b).cond) ∈ f.code

def InlinesInFirst : Prop :=
  ∀ c ∈ f.chainList, c.any f.keepAll = false → ∀ k < 4, ∀ i p text l,
    inline? ((afterDce (f.liveAfter c) (f.stage c k)).map Prod.fst) (f.liveAfter c)
        = some (i, p, text) →
      (afterDce (f.liveAfter c) (f.stage c k))[p]? = some l → l.2 = 0

variable {f}

theorem cleaned_eq (c : List ℕ) : f.cleaned c = (f.stage c 4).map Prod.fst := by
  have hstart : (c.flatMap fun b => (f.stmts.getD b []).map fun s => (s, b)).map Prod.fst
      = c.flatMap fun b => f.stmts.getD b [] := by
    rw [List.map_flatMap]
    refine congrArg (c.flatMap ·) (funext fun b => ?_)
    rw [List.map_map]
    exact List.map_id _
  rw [cleaned, stage, ← hstart]
  split_ifs
  · rfl
  · exact cleanChain_eq _ _ _

theorem chainLines_eq {c : List ℕ} (h : Tagged (f.stage c 4)) : f.chainLines c = f.linesLeft c := by
  have htags : (f.cleaned c).map Stmt.origin = (f.stage c 4).map Prod.snd := by
    rw [cleaned_eq, List.map_map]
    exact List.map_congr_left fun l hl => h l hl
  have htexts : (f.cleaned c).map Stmt.text = (f.stage c 4).map fun l => l.1.text := by
    rw [cleaned_eq, List.map_map]
    rfl
  rw [chainLines, linesLeft, htags, htexts]

theorem tagged_stages {c : List ℕ} (hstart : Tagged (f.stage c 0)) (n : ℕ) :
    (∀ k ≤ n, Tagged (f.stage c k)) ↔ (c.any f.keepAll = false → ∀ k < n, ∀ i p text l,
      inline? ((afterDce (f.liveAfter c) (f.stage c k)).map Prod.fst) (f.liveAfter c)
          = some (i, p, text) →
        (afterDce (f.liveAfter c) (f.stage c k))[p]? = some l → l.2 = 0) := by
  cases hkeep : c.any f.keepAll with
  | true =>
    refine ⟨fun _ => nofun, fun _ k _ => ?_⟩
    rw [stage, if_pos hkeep] at hstart ⊢
    exact hstart
  | false =>
    have hnext : ∀ k, f.stage c (k + 1) = afterRound (f.liveAfter c) (f.stage c k) := by
      intro k
      rw [stage, stage, hkeep]
      exact Function.iterate_succ_apply' _ _ _
    induction n with
    | zero =>
      refine ⟨fun _ _ k hk => absurd hk (Nat.not_lt_zero k), fun _ k hk => ?_⟩
      rwa [Nat.le_zero.mp hk]
    | succ n ih =>
      constructor
      · intro h _ k hk
        refine (tagged_afterRound (h k (by omega))).mp ?_
        rw [← hnext]
        exact h (k + 1) (by omega)
      · intro h
        have hrest := ih.mpr fun hc k hk => h hc k (by omega)
        intro k hk
        rcases Nat.lt_or_ge k (n + 1) with hlt | hge
        · exact hrest k (by omega)
        · obtain rfl : k = n + 1 := by omega
          rw [hnext]
          exact (tagged_afterRound (hrest n le_rfl)).mpr (h rfl n (Nat.lt_succ_self n))

end Prepared

/-! ### The code map -/

theorem perBlock_eq (lines : List (Text × ℕ)) (b : ℕ) :
    perBlock lines b = (lines.filter (·.2 == b)).map Prod.fst := by
  have hfold : ∀ (m : ℕ → List Text),
      lines.foldl (fun m (x : Text × ℕ) => Function.update m x.2 (m x.2 ++ [x.1])) m b
        = m b ++ (lines.filter (·.2 == b)).map Prod.fst := by
    induction lines with
    | nil => simp
    | cons x lines ih =>
      intro m
      rw [List.foldl_cons, ih]
      by_cases hx : x.2 = b
      · subst hx
        simp
      · simp [hx, Function.update_of_ne (Ne.symm hx)]
  exact (hfold _).trans (List.nil_append _)

theorem FunctionCode.insert_of_not_mem {code : FunctionCode} {a : ℕ}
    (h : a ∉ code.map Prod.fst) (v : List Text × Option Text) :
    code.insert a v = code ++ [(a, v)] := by
  rw [insert, List.filter_eq_self.mpr]
  intro kv hkv
  rw [bne_iff_ne]
  rintro rfl
  exact h (List.mem_map_of_mem hkv)

namespace Prepared

variable {f : Prepared}

def entries (f : Prepared) (c : List ℕ) : FunctionCode :=
  c.map fun b => ((f.block b).start, perBlock (f.chainLines c) b, (f.block b).cond)

theorem addChain_eq {code : FunctionCode} {c : List ℕ}
    (h : (code.map Prod.fst ++ c.map fun b => (f.block b).start).Nodup) :
    f.addChain code c = code ++ f.entries c := by
  have hfold : ∀ (bs : List ℕ) (code : FunctionCode) (v : ℕ → List Text × Option Text),
      (code.map Prod.fst ++ bs.map fun b => (f.block b).start).Nodup →
      bs.foldl (fun code b => code.insert (f.block b).start (v b)) code
        = code ++ bs.map fun b => ((f.block b).start, v b) := by
    intro bs
    induction bs with
    | nil => simp
    | cons b bs ih =>
      intro code v hnodup
      have hb : (f.block b).start ∉ code.map Prod.fst := by
        intro hmem
        exact (List.nodup_append.mp hnodup).2.2 _ hmem _ List.mem_cons_self rfl
      rw [List.foldl_cons, FunctionCode.insert_of_not_mem hb, ih, List.append_assoc]
      · rfl
      · rw [List.map_append, List.append_assoc]
        exact hnodup
  exact hfold c code _ h

theorem code_eq (h : (f.chainList.flatten.map fun b => (f.block b).start).Nodup) :
    f.code = f.chainList.flatMap f.entries := by
  have hfold : ∀ (cs : List (List ℕ)) (code : FunctionCode),
      (code.map Prod.fst ++ cs.flatten.map fun b => (f.block b).start).Nodup →
      cs.foldl f.addChain code = code ++ cs.flatMap f.entries := by
    intro cs
    induction cs with
    | nil => simp
    | cons c cs ih =>
      intro code hnodup
      rw [List.flatten_cons, List.map_append, ← List.append_assoc] at hnodup
      have hkeys : ((code ++ f.entries c).map Prod.fst)
          = code.map Prod.fst ++ c.map fun b => (f.block b).start := by
        rw [List.map_append, entries, List.map_map]
        rfl
      rw [List.foldl_cons, addChain_eq (List.nodup_append.mp hnodup).1, ih,
        List.flatMap_cons, List.append_assoc]
      rw [hkeys]
      exact hnodup
  exact (hfold _ [] h).trans (List.nil_append _)

theorem code_keys (h : (f.chainList.flatten.map fun b => (f.block b).start).Nodup) :
    f.code.map Prod.fst = f.chainList.flatten.map fun b => (f.block b).start := by
  rw [code_eq h, List.map_flatMap, List.flatten_eq_flatMap, List.map_flatMap]
  refine congrArg (f.chainList.flatMap ·) (funext fun c => ?_)
  rw [entries, List.map_map]
  rfl

end Prepared

/-! ### A function -/

theorem blockEdges_lt (blocks : List BlockText) :
    ∀ b, ∀ u ∈ (blockEdges blocks).getD b [], u < (blockEdges blocks).length := by
  intro b u hu
  rw [blockEdges, List.getD_eq_getElem?_getD, List.getElem?_map] at hu
  cases hblock : blocks[b]? with
  | none =>
    rw [hblock] at hu
    cases hu
  | some block =>
    rw [hblock, Option.map_some, Option.getD_some] at hu
    obtain ⟨t, -, ht⟩ := List.mem_filterMap.mp hu
    rw [blockEdges, List.length_map]
    exact (List.findIdx?_eq_some_iff_findIdx_eq.mp ht).1

/-- The chains are a partition of the blocks whose members are joined by lone edges, and the code
map has one entry for each block.  The lines are filed under their blocks, after every round
and in the code map, if and only if no definition is inlined into a line of another block than
block 0. -/
theorem optimize_files_iff (bits64 : Bool) (entry : ℕ) (blocks : List BlockText)
    (h : (blocks.map BlockText.start).Nodup) :
    ∃ (rounds : ℕ) (f : Prepared),
      (∀ fuel, rounds ≤ fuel → prepare? fuel bits64 entry blocks = some f ∧
        optimizeFunction? fuel bits64 entry blocks = some f.code) ∧
      f.chainList.flatten.Perm (List.range blocks.length) ∧
      (∀ c ∈ f.chainList, List.IsChain (fun b u => (blockEdges blocks).getD b [] = [u] ∧
        predsOf (blockEdges blocks) u = [b]) c) ∧
      (f.code.map Prod.fst).Perm (blocks.map BlockText.start) ∧
      (f.Filed ↔ f.InlinesInFirst) := by
  set succ := blockEdges blocks with hsucc
  set stmts := constPropagate (parsedBlocks blocks) succ
    ((blocks.findIdx? (·.start == entry)).getD 0) with hstmts
  obtain ⟨rounds, live, hends, -⟩ := liveness?_ends
    ((blocks.zip stmts).map fun x => useDef x.1.keepAll x.2 x.1.endUses) succ
  let f : Prepared := ⟨blocks, succ, stmts, live, bits64⟩
  have hprep : ∀ fuel, rounds ≤ fuel → prepare? fuel bits64 entry blocks = some f := by
    intro fuel hfuel
    rw [prepare?]
    exact congrArg (Option.map _) (hends fuel hfuel)
  have hperm : f.chainList.flatten.Perm (List.range blocks.length) := by
    have hchains : f.chainList.flatten.Perm (List.range succ.length) :=
      chains_perm (blockEdges_lt blocks)
    rwa [hsucc, blockEdges, List.length_map] at hchains
  have hstarts : (f.chainList.flatten.map fun b => (f.block b).start).Perm
      (blocks.map BlockText.start) := by
    refine (hperm.map _).trans (List.Perm.of_eq ?_)
    refine List.ext_getElem (by simp) fun i hi hi' => ?_
    rw [List.length_map] at hi'
    simp [f, Prepared.block, List.getElem?_eq_getElem hi']
  have hnodup := hstarts.nodup_iff.mpr h
  have hstart : ∀ c, Tagged (f.stage c 0) := by
    intro c l hl
    have hmem : l ∈ c.flatMap fun b => (f.stmts.getD b []).map fun s => (s, b) := by
      rw [Prepared.stage] at hl
      split_ifs at hl <;> exact hl
    obtain ⟨b, -, hb⟩ := List.mem_flatMap.mp hmem
    obtain ⟨s, hs, rfl⟩ := List.mem_map.mp hb
    exact (mem_constPropagate hs).1
  refine ⟨rounds, f, fun fuel hfuel => ⟨hprep fuel hfuel, ?_⟩, hperm,
    chains_joined (blockEdges_lt blocks), ?_, fun hfiled c hc => ?_, fun hfirst => ⟨?_, ?_⟩⟩
  · rw [optimizeFunction?, hprep fuel hfuel]
    rfl
  · rw [Prepared.code_keys hnodup]
    exact hstarts
  · exact (Prepared.tagged_stages (hstart c) 4).mp (hfiled.tagged c hc)
  · exact fun c hc => (Prepared.tagged_stages (hstart c) 4).mpr (hfirst c hc)
  · intro c hc b hb
    have htagged := (Prepared.tagged_stages (hstart c) 4).mpr (hfirst c hc) 4 le_rfl
    rw [Prepared.code_eq hnodup, ← Prepared.chainLines_eq htagged, ← perBlock_eq]
    exact List.mem_flatMap.mpr ⟨c, hc, List.mem_map.mpr ⟨b, hb, rfl⟩⟩

def lostStore : List BlockText := [
  ⟨0x1000, ["// flags = test eax,eax".toList], some "eax == 0".toList, .condJump, [0x1008, 0x1004]⟩,
  ⟨0x1004, ["ecx = eax;".toList, "*(uint32_t*)(edx) = ecx;".toList], none, .ret, []⟩,
  ⟨0x1008, [], none, .ret, []⟩]

theorem lostStore_starts : (lostStore.map BlockText.start).Nodup := by
  decide

theorem optimize_files_iff_lostStore : ∃ (rounds : ℕ) (f : Prepared),
      (∀ fuel, rounds ≤ fuel → prepare? fuel false 0x1000 lostStore = some f ∧
        optimizeFunction? fuel false 0x1000 lostStore = some f.code) ∧
      f.chainList.flatten.Perm (List.range lostStore.length) ∧
      (∀ c ∈ f.chainList, List.IsChain (fun b u => (blockEdges lostStore).getD b [] = [u] ∧
        predsOf (blockEdges lostStore) u = [b]) c) ∧
      (f.code.map Prod.fst).Perm (lostStore.map BlockText.start) ∧
      (f.Filed ↔ f.InlinesInFirst) :=
  optimize_files_iff false 0x1000 lostStore lostStore_starts

/-- The store is gone, and is not filed under its block. -/
theorem optimize_files_not :
    (optimizeFunction? 3 false 0x1000 lostStore).map (List.lookup 0x1004) = some (some ([], none)) ∧
      ∃ f, prepare? 3 false 0x1000 lostStore = some f ∧ ¬f.Filed := by
  have hchain : (prepare? 3 false 0x1000 lostStore).map (fun f => decide ([1] ∈ f.chainList))
      = some true := by
    decide +kernel
  have hmissing : (prepare? 3 false 0x1000 lostStore).map (fun f => decide (((f.block 1).start,
      ((f.linesLeft [1]).filter (·.2 == 1)).map Prod.fst, (f.block 1).cond) ∈ f.code))
        = some false := by
    decide +kernel
  obtain ⟨f, hf, hmem⟩ := Option.map_eq_some_iff.mp hchain
  rw [hf, Option.map_some, Option.some.injEq, decide_eq_false_iff_not] at hmissing
  refine ⟨by decide +kernel, f, hf, fun hfiled => hmissing ?_⟩
  exact hfiled.code [1] (of_decide_eq_true hmem) 1 (List.mem_singleton_self 1)

end Dataflow
end Aret
