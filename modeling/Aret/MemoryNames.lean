/-
The identifiers in use in the memory store.
-/
import Aret.MemoryFrame

namespace Aret.Memory

open Txn

variable {s t : Store} {env : Env} {id : String} {k : Kind}

/-! ### Names -/

def Db.ids (db : Db) : Kind → List String
  | .knowledge => db.knowledge.map (·.id)
  | .component => db.component.map (·.id)
  | .function => db.functionSymbol.map (·.id)
  | .brick => db.brick.map (·.id)
  | .proof => db.proof.map (·.id)
  | .asset => db.asset.map (·.id)
  | .pipeline => db.pipelineRun.map (·.id)
  | .relation | .front => []

def Db.has (db : Db) : Kind → String → Bool
  | .knowledge => db.hasKnowledge
  | .component => db.hasComponent
  | .function => db.hasFunction
  | .brick => db.hasBrick
  | .proof => db.hasProof
  | .asset => db.hasAsset
  | .pipeline => db.hasPipelineRun
  | .relation | .front => fun _ => false

theorem any_iff_mem {α : Type} {l : List α} {key : α → String} :
    l.any (key · == id) = true ↔ id ∈ l.map key := by
  rw [List.any_eq_true, List.mem_map]
  exact exists_congr fun a => and_congr_right fun _ => beq_iff_eq

theorem has_iff {db : Db} : db.has k id = true ↔ id ∈ db.ids k := by
  cases k with
  | relation => exact iff_of_false Bool.false_ne_true List.not_mem_nil
  | front => exact iff_of_false Bool.false_ne_true List.not_mem_nil
  | _ => exact any_iff_mem

def Plain (id : String) : Prop := id ≠ "" ∧ hasSlash id = false

def Store.Plain (s : Store) : Prop := ∀ k id, s.db.has k id = true → Memory.Plain id

def Store.Distinct (s : Store) : Prop := ∀ k, (s.db.ids k).Nodup

def Same (s t : Store) : Prop := ∀ k, t.db.ids k = s.db.ids k

instance : IsPreorder Store Same where
  refl _ := fun _ => rfl
  trans _ _ _ h h' := fun k => (h' k).trans (h k)

theorem Same.has (h : Same s t) (k : Kind) (id : String) : t.db.has k id = s.db.has k id := by
  rw [Bool.eq_iff_iff, has_iff, has_iff, h k]

theorem Aside.same (h : Aside s t) : Same s t := by
  intro k
  cases k with
  | knowledge => exact congrArg (List.map _) h.knowledge
  | component => exact congrArg (List.map _) h.component
  | function => exact congrArg (List.map _) h.functionSymbol
  | brick => exact congrArg (List.map _) h.brick
  | proof => exact congrArg (List.map _) h.proof
  | asset => exact congrArg (List.map _) h.asset
  | pipeline => exact congrArg (List.map _) h.pipelineRun
  | relation => rfl
  | front => rfl

instance : Rows Same where
  of_alike h := h.toAside.same

/-- One name more, that was not in use in its table. -/
structure Adds (k : Kind) (id : String) (s t : Store) : Prop where
  fresh : s.db.has k id = false
  ids : ∀ k', t.db.ids k' = if k' = k then s.db.ids k' ++ [id] else s.db.ids k'

theorem Adds.has_iff (h : Adds k id s t) {k' : Kind} {id' : String} :
    t.db.has k' id' = true ↔ s.db.has k' id' = true ∨ k' = k ∧ id' = id := by
  rw [Memory.has_iff, Memory.has_iff, h.ids]
  split
  · rename_i hk
    rw [List.mem_append, List.mem_singleton]
    exact or_congr_right (and_iff_right hk).symm
  · rename_i hk
    exact (or_iff_left fun h => hk h.1).symm

theorem Adds.self (h : Adds k id s t) : t.db.has k id = true := h.has_iff.mpr (Or.inr ⟨rfl, rfl⟩)

theorem Adds.before {u : Store} (h : Same s t) (h' : Adds k id t u) : Adds k id s u where
  fresh := (h.has k id).symm.trans h'.fresh
  ids k' := by rw [h'.ids, h k']

theorem Adds.after {u : Store} (h : Adds k id s t) (h' : Same t u) : Adds k id s u where
  fresh := h.fresh
  ids k' := (h' k').trans (h.ids k')

/-- Names stay in use, tell rows apart, and can be written in an address. -/
structure Named (s t : Store) : Prop where
  grows : ∀ k id, s.db.has k id = true → t.db.has k id = true
  plain : s.Plain → t.Plain
  distinct : s.Distinct → t.Distinct

theorem Same.named (h : Same s t) : Named s t where
  grows k id hk := (h.has k id).trans hk
  plain hs k id hk := hs k id ((h.has k id).symm.trans hk)
  distinct hs k := (h k).symm ▸ hs k

theorem nodup_concat {l : List String} {a : String} (h : l.Nodup) (ha : a ∉ l) :
    (l ++ [a]).Nodup := by
  rw [← List.concat_eq_append]
  exact List.Nodup.concat ha h

theorem Adds.named (h : Adds k id s t) (hid : Plain id) : Named s t where
  grows k' id' hk := h.has_iff.mpr (Or.inl hk)
  plain hs k' id' hk := by
    rcases h.has_iff.mp hk with hk | ⟨_, rfl⟩
    · exact hs k' id' hk
    · exact hid
  distinct hs k' := by
    rw [h.ids]
    split
    · rename_i hk
      subst hk
      refine nodup_concat (hs k') fun hm => ?_
      exact Bool.false_ne_true (h.fresh.symm.trans (Memory.has_iff.mpr hm))
    · exact hs k'

/-! ### Inserts -/

theorem insertComponent_adds {row : Component} {a : Unit}
    (h : insertComponent row s = (.ok a, t)) : Adds .component row.id s t := by
  simp only [insertComponent, bind_ok, constrain_ok, update_ok] at h
  obtain ⟨_, _, ⟨hn, rfl⟩, rfl⟩ := h
  refine ⟨(Bool.not_eq_true' _).mp hn, fun k' => ?_⟩
  cases k' <;> first | rfl | exact List.map_append

theorem insertFunction_adds {row : FunctionSymbol} {a : Unit}
    (h : insertFunction row s = (.ok a, t)) : Adds .function row.id s t := by
  simp only [insertFunction, bind_ok, constrain_ok, update_ok] at h
  obtain ⟨_, _, ⟨hn, rfl⟩, _, _, ⟨_, rfl⟩, _, _, ⟨_, rfl⟩, rfl⟩ := h
  refine ⟨(Bool.not_eq_true' _).mp hn, fun k' => ?_⟩
  cases k' <;> first | rfl | exact List.map_append

theorem insertBrick_adds {row : Brick} {a : Unit} (h : insertBrick row s = (.ok a, t)) :
    Adds .brick row.id s t := by
  simp only [insertBrick, bind_ok, constrain_ok, update_ok] at h
  obtain ⟨_, _, ⟨hn, rfl⟩, _, _, ⟨_, rfl⟩, _, _, ⟨_, rfl⟩, rfl⟩ := h
  refine ⟨(Bool.not_eq_true' _).mp hn, fun k' => ?_⟩
  cases k' <;> first | rfl | exact List.map_append

/-- The constraints that an entry has passed. -/
structure Admitted (row : Knowledge) (db : Db) : Prop where
  unproven : row.status ≠ .proven
  fresh : db.hasKnowledge row.id = false
  component : row.componentId.all db.hasComponent = true
  supersedes : row.supersedesId.all db.hasKnowledge = true

theorem insertKnowledge_ok {row : Knowledge} {a : Unit}
    (h : insertKnowledge row s = (.ok a, t)) :
    Admitted row s.db ∧
      t = { s with db := { s.db with knowledge := s.db.knowledge ++ [row] } } := by
  simp only [insertKnowledge, bind_ok, constrain_ok, update_ok] at h
  obtain ⟨_, _, ⟨hu, rfl⟩, _, _, ⟨hn, rfl⟩, _, _, ⟨_, rfl⟩, _, _, ⟨hf, rfl⟩, rfl⟩ := h
  simp only [Bool.and_eq_true] at hf
  exact ⟨⟨bne_iff_ne.mp hu, (Bool.not_eq_true' _).mp hn, hf.1.1.1, hf.2⟩, rfl⟩

theorem insertKnowledge_adds {row : Knowledge} {a : Unit}
    (h : insertKnowledge row s = (.ok a, t)) : Adds .knowledge row.id s t := by
  obtain ⟨had, rfl⟩ := insertKnowledge_ok h
  refine ⟨had.fresh, fun k' => ?_⟩
  cases k' <;> first | rfl | exact List.map_append

theorem insertProof_ok {row : Proof} {a : Unit} (h : insertProof row s = (.ok a, t)) :
    s.db.hasProof row.id = false ∧
      t = { s with db := { s.db with proof := s.db.proof ++ [row] } } := by
  simp only [insertProof, bind_ok, constrain_ok, update_ok] at h
  obtain ⟨_, _, ⟨hn, rfl⟩, rfl⟩ := h
  exact ⟨(Bool.not_eq_true' _).mp hn, rfl⟩

theorem insertProof_adds {row : Proof} {a : Unit} (h : insertProof row s = (.ok a, t)) :
    Adds .proof row.id s t := by
  obtain ⟨hn, rfl⟩ := insertProof_ok h
  refine ⟨hn, fun k' => ?_⟩
  cases k' <;> first | rfl | exact List.map_append

theorem insertAsset_adds {row : Asset} {a : Unit} (h : insertAsset row s = (.ok a, t)) :
    Adds .asset row.id s t := by
  simp only [insertAsset, bind_ok, constrain_ok, update_ok] at h
  obtain ⟨_, _, ⟨hn, rfl⟩, _, _, ⟨_, rfl⟩, rfl⟩ := h
  refine ⟨(Bool.not_eq_true' _).mp hn, fun k' => ?_⟩
  cases k' <;> first | rfl | exact List.map_append

theorem insertPipelineRun_adds {row : PipelineRun} {a : Unit}
    (h : insertPipelineRun row s = (.ok a, t)) : Adds .pipeline row.id s t := by
  simp only [insertPipelineRun, bind_ok, constrain_ok, update_ok] at h
  obtain ⟨_, _, ⟨hn, rfl⟩, rfl⟩ := h
  refine ⟨(Bool.not_eq_true' _).mp hn, fun k' => ?_⟩
  cases k' <;> first | rfl | exact List.map_append

theorem insertProofLink_ok {row : ProofLink} {a : Unit}
    (h : insertProofLink row s = (.ok a, t)) :
    s.db.hasKnowledge row.knowledgeId = true ∧ s.db.hasProof row.proofId = true ∧
      t = { s with db := { s.db with proofLink := s.db.proofLink ++ [row] } } := by
  simp only [insertProofLink, bind_ok, constrain_ok, update_ok] at h
  obtain ⟨_, _, ⟨_, rfl⟩, _, _, ⟨hf, rfl⟩, rfl⟩ := h
  exact ⟨(Bool.and_eq_true_iff.mp hf).1, (Bool.and_eq_true_iff.mp hf).2, rfl⟩

/-! ### Updates -/

theorem updateKnowledge_ok {change : Knowledge → Knowledge} {a : Unit}
    (h : updateKnowledge id change s = (.ok a, t)) :
    (∀ k ∈ s.db.knowledge, k.id = id → (change k).status = .proven →
        s.db.justified (change k).id = true) ∧
      (∀ k ∈ s.db.knowledge, k.id = id → k.rewrites (change k) = false) ∧
      t = { s with db := { s.db with
        knowledge := s.db.knowledge.map fun k => if k.id == id then change k else k } } := by
  simp only [updateKnowledge, bind_ok, constrain_ok, update_ok] at h
  obtain ⟨_, _, ⟨hp, rfl⟩, _, _, ⟨hw, rfl⟩, rfl⟩ := h
  refine ⟨?_, ?_, rfl⟩
  · intro k hk hid hs
    have := List.all_eq_true.mp hp k hk
    rw [hid, hs, bne_self_eq_false, bne_self_eq_false, Bool.false_or, Bool.false_or] at this
    exact this
  · intro k hk hid
    have := List.all_eq_true.mp hw k hk
    rw [hid, bne_self_eq_false, Bool.false_or] at this
    exact (Bool.not_eq_true' _).mp this

theorem map_same {α : Type} {l : List α} {key : α → String} {f : α → α}
    (h : ∀ a, key (f a) = key a) : (l.map f).map key = l.map key := by
  rw [List.map_map]
  exact congrArg (List.map · l) (funext h)

theorem setStatus_same {status : Status} {stamp : String} :
    Moves Same (setStatus id status stamp) := by
  intro s a t h
  obtain ⟨_, _, rfl⟩ := updateKnowledge_ok h
  intro k
  cases k with
  | knowledge =>
    refine map_same fun k => ?_
    split <;> rfl
  | _ => rfl

theorem clearAdmissible_same : Moves Same (clearAdmissible id) := by
  refine moves_update fun s k => ?_
  cases k with
  | proof =>
    refine map_same fun p => ?_
    split <;> rfl
  | _ => rfl

theorem setBrick_same {state : BrickState} {milestone targetPlatform : Option String}
    {priority : ℤ} : Moves Same (setBrick id state milestone targetPlatform priority) := by
  refine moves_insert fun s k => ?_
  cases k with
  | brick =>
    refine map_same fun b => ?_
    split <;> rfl
  | _ => rfl

theorem insertProofLink_same {row : ProofLink} : Moves Same (insertProofLink row) := by
  intro s a t h
  obtain ⟨_, _, rfl⟩ := insertProofLink_ok h
  intro k
  cases k <;> rfl

/-! ### Identifiers -/

theorem newId_ok {entity stem : String} (h : newId entity stem s = (.ok id, t)) :
    (∃ n, id = mint stem n) ∧ Aside s t := by
  refine ⟨?_, moves_newId h⟩
  simp only [newId, bind_ok, pure_ok] at h
  obtain ⟨_, _, _, _, _, _, rfl, _⟩ := h
  exact ⟨_, rfl⟩

theorem isDigit_of_mem_pad4 {n : ℕ} {c : Char} (h : c ∈ pad4 n) : c.isDigit = true := by
  rcases List.mem_append.mp h with h | h
  · rw [(List.mem_replicate.mp h).2]
    rfl
  · exact Nat.isDigit_of_mem_toDigits (by decide) (by decide) h

theorem hasSlash_append (a b : String) : hasSlash (a ++ b) = (hasSlash a || hasSlash b) := by
  rw [hasSlash, String.toList_append, Bool.eq_iff_iff, Bool.or_eq_true]
  simp only [hasSlash, List.contains_iff_mem, List.mem_append]

theorem plain_mint {stem : String} (h : Plain stem) (n : ℕ) : Plain (mint stem n) := by
  constructor
  · intro he
    have := congrArg (fun s : String => s.toList.length) he
    simp only [mint, String.toList_append, List.length_append] at this
    exact absurd this (by
      have : "-".toList.length = 1 := rfl
      have : "".toList.length = 0 := rfl
      omega)
  · rw [mint, hasSlash_append, hasSlash_append, h.2, Bool.false_or]
    have hd : hasSlash (String.ofList (pad4 n)) = false := by
      rw [hasSlash, String.toList_ofList, List.contains_eq_mem]
      refine decide_eq_false fun hm => ?_
      exact absurd (isDigit_of_mem_pad4 hm) (by decide)
    rw [hd]
    rfl

theorem plain_of_valid (h : validIdentifier id = true) : Plain id := by
  have hcs : ∀ c ∈ id.toList, c ≠ '/' := by
    rw [validIdentifier, fullmatch] at h
    intro c hc
    rcases hl : id.toList with _ | ⟨d, cs⟩
    · rw [hl] at hc
      exact nomatch hc
    · rw [hl] at h hc
      simp only [Bool.and_eq_true] at h
      rcases List.mem_cons.mp hc with rfl | hc
      · rintro rfl
        exact absurd h.1.1.1 (by decide)
      · have := List.all_eq_true.mp h.2 c hc
        rintro rfl
        exact absurd this (by decide)
  constructor
  · rintro rfl
    exact absurd h (by decide)
  · rw [hasSlash, List.contains_eq_mem]
    exact decide_eq_false fun hm => hcs _ hm rfl

end Aret.Memory
