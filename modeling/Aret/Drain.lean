/-
Recursive descent: decoding all that is reachable.

`drain` takes run starts from a work list and decodes from each one on until it comes to
what is decoded, or cannot be; `resolve_jump_tables_fixpoint` looks for tables again in
what is decoded, until no new one is found.

* `drain_closed` — after both, nothing is left to decode, and nothing was decoded twice; and
  where what is decoded settles the tables, the order of the work does not matter.
-/
import Aret.JumpTable
import Mathlib.Data.Finset.Card

namespace Aret.Drain

open Image

/-! ### The image -/

/-- A program image, and what the disassembler makes of it. -/
structure Source where
  sections : List Section
  /-- The size of a pointer. -/
  ptr : ℕ
  view : Insn → JumpTable.View
  /-- `decode_at`. -/
  decode : ℕ → Option Insn
  decode_address : ∀ {a : ℕ} {i : Insn}, decode a = some i → i.address = a

namespace Source

variable (src : Source)

def exec (a : ℕ) : Bool := isExecutable src.sections a

def resolve (insns : List Insn) (i : Insn) : Option (List ℕ) :=
  JumpTable.resolveTable src.sections src.ptr
    ((insns.filter (·.address < i.address)).reverse.map src.view) (src.view i)

def bound : ℕ := (src.sections.map Section.stop).foldr max 0

theorem exec_lt {a : ℕ} (h : src.exec a = true) : a < src.bound := by
  rw [exec, isExecutable, sectionAt, Option.any_eq_true] at h
  obtain ⟨s, hs, -⟩ := h
  have hmem : s ∈ src.sections := List.mem_of_find?_eq_some hs
  have hcont : s.contains a = true := by simpa using List.find?_some hs
  rw [Section.contains_iff] at hcont
  have hle : ∀ l : List Section, s ∈ l → s.stop ≤ (l.map Section.stop).foldr max 0 := by
    intro l
    induction l with
    | nil => simp
    | cons t l ih =>
      intro hl
      rw [List.map_cons, List.foldr_cons]
      rcases List.mem_cons.mp hl with rfl | hl
      · exact le_max_left _ _
      · exact (ih hl).trans (le_max_right _ _)
  have hstop := hle _ hmem
  rw [Section.stop] at hstop
  rw [bound]
  omega

end Source

/-! ### The descent -/

/-- The maps that are filled, the work list, and the addresses decoded, the last one
first. -/
structure State where
  insns : List Insn
  entries : List ℕ
  tables : JumpTables
  work : List ℕ
  decoded : List ℕ

def runsOn : Flow → Bool
  | .fallthrough | .call | .condJump => true
  | _ => false

section
variable (src : Source)

def newEntries (st : State) (i : Insn) : List ℕ :=
  if i.flow = .call then i.target.toList.filter fun t => src.exec t && !st.entries.contains t
  else []

def foundTable (st : State) (i : Insn) : Option (List ℕ) :=
  if i.flow = .indirect then src.resolve st.insns i else none

def queued (st : State) (i : Insn) : List ℕ :=
  match i.flow with
  | .call => newEntries src st i
  | .condJump | .jump => i.target.toList
  | .indirect => (foundTable src st i).getD []
  | _ => []

def put (st : State) (i : Insn) : State where
  insns := insertInsn i st.insns
  entries := st.entries ++ newEntries src st i
  tables := match foundTable src st i with
    | some ts => Function.update st.tables i.address (some ts)
    | none => st.tables
  work := st.work ++ queued src st i
  decoded := i.address :: st.decoded

/-- The inner loop of `drain`, for at most `fuel` instructions. -/
def decodeRun : ℕ → ℕ → State → Option State
  | 0, _, _ => none
  | fuel + 1, cur, st =>
    if hasInsn st.insns cur || !src.exec cur then some st
    else
      match src.decode cur with
      | none => some st
      | some i =>
        if runsOn i.flow then decodeRun fuel i.nextAddr (put src st i) else some (put src st i)

/-- `drain`, for at most `fuel` run starts. -/
def drain : ℕ → State → Option State
  | 0, st => if st.work = [] then some st else none
  | fuel + 1, st =>
    match st.work with
    | [] => some st
    | a :: work => (decodeRun src (src.bound + 1) a { st with work := work }).bind (drain fuel)

def found (st : State) : List (ℕ × List ℕ) :=
  st.insns.filterMap fun i =>
    if i.flow = .indirect ∧ st.tables i.address = none then
      (src.resolve st.insns i).map fun ts => (i.address, ts)
    else none

def addTables (st : State) : State :=
  { st with
    tables := fun a => ((found src st).lookup a).or (st.tables a)
    work := ((found src st).flatMap Prod.snd).filter fun t => !hasInsn st.insns t }

/-- `resolve_jump_tables_fixpoint`, for at most `fuel` rounds, and whether it found any. -/
def resolveFixpoint : ℕ → State → Option (State × Bool)
  | 0, _ => none
  | fuel + 1, st =>
    if found src st = [] then some (st, false)
    else
      (drain src fuel (addTables src st)).bind fun st' =>
        (resolveFixpoint fuel st').map fun r => (r.1, true)

end

/-! ### Growth -/

/-- There is nothing left to decode at `b` when `insns` are decoded. -/
def Covered (src : Source) (insns : List Insn) (b : ℕ) : Prop :=
  hasInsn insns b = true ∨ src.exec b = false ∨ src.decode b = none

section
variable {src : Source} {st st' : State}

/-- The maps only grow, by executable instructions that were not decoded before. -/
structure Grows (src : Source) (st st' : State) : Prop where
  insns : ∀ i ∈ st.insns, i ∈ st'.insns
  entries : ∀ t ∈ st.entries, t ∈ st'.entries
  tables : ∀ a, st.tables a ≠ none → st'.tables a ≠ none
  fresh : ∀ i ∈ st'.insns, i ∈ st.insns ∨
    (src.exec i.address = true ∧ src.decode i.address = some i ∧
      hasInsn st.insns i.address = false)

theorem hasInsn_of_subset {l l' : List Insn} (h : ∀ i ∈ l, i ∈ l') {a : ℕ}
    (ha : hasInsn l a = true) : hasInsn l' a = true := by
  obtain ⟨i, hi, hia⟩ := hasInsn_iff.mp ha
  exact hasInsn_iff.mpr ⟨i, h i hi, hia⟩

theorem Grows.refl (src : Source) (st : State) : Grows src st st :=
  ⟨fun _ h => h, fun _ h => h, fun _ h => h, fun _ h => .inl h⟩

theorem Grows.trans {st'' : State} (h : Grows src st st') (h' : Grows src st' st'') :
    Grows src st st'' := by
  refine ⟨fun i hi => h'.insns i (h.insns i hi), fun t ht => h'.entries t (h.entries t ht),
    fun a ha => h'.tables a (h.tables a ha), fun i hi => ?_⟩
  rcases h'.fresh i hi with hold | ⟨hexec, hdec, hno⟩
  · exact h.fresh i hold
  · refine .inr ⟨hexec, hdec, ?_⟩
    by_contra hyes
    rw [hasInsn_of_subset h.insns (by simpa using hyes)] at hno
    cases hno

theorem ne_of_hasInsn_false {l : List Insn} {a : ℕ} (hno : hasInsn l a = false) {j : Insn}
    (hj : j ∈ l) : j.address ≠ a := by
  intro heq
  simp [hasInsn_iff.mpr ⟨j, hj, heq⟩] at hno

theorem mem_insertInsn_of_mem {i j : Insn} {l : List Insn} (hno : hasInsn l i.address = false)
    (hj : j ∈ l) : j ∈ insertInsn i l := by
  induction l with
  | nil => cases hj
  | cons k l ih =>
    rw [hasInsn, List.any_cons, Bool.or_eq_false_iff] at hno
    have hk : ¬ i.address = k.address := fun heq => by simp [heq] at hno
    rw [insertInsn]
    split_ifs
    · exact List.mem_cons_of_mem _ hj
    · rcases List.mem_cons.mp hj with rfl | hj
      · exact List.mem_cons_self
      · exact List.mem_cons_of_mem _ (ih hno.2 hj)

theorem tables_put_of_ne {i : Insn} {a : ℕ} (h : a ≠ i.address) :
    (put src st i).tables a = st.tables a := by
  rw [put]
  cases foundTable src st i with
  | none => rfl
  | some ts => exact Function.update_of_ne h ..

theorem put_grows {i : Insn} (hdec : src.decode i.address = some i)
    (hexec : src.exec i.address = true) (hno : hasInsn st.insns i.address = false) :
    Grows src st (put src st i) := by
  refine ⟨fun j hj => mem_insertInsn_of_mem hno hj, fun t ht => List.mem_append_left _ ht,
    fun a ha => ?_, fun j hj => ?_⟩
  · by_cases hai : a = i.address
    · rw [put]
      cases foundTable src st i with
      | none => exact ha
      | some ts =>
        rw [hai]
        simp
    · rwa [tables_put_of_ne hai]
  · rcases mem_insertInsn hj with rfl | hj
    · exact .inr ⟨hexec, hdec, hno⟩
    · exact .inl hj

def left (src : Source) (st : State) : ℕ :=
  ((Finset.range src.bound).filter fun a =>
    src.exec a = true ∧ hasInsn st.insns a = false).card

theorem left_put {i : Insn} (hexec : src.exec i.address = true)
    (hno : hasInsn st.insns i.address = false) : left src (put src st i) < left src st := by
  apply Finset.card_lt_card
  rw [Finset.ssubset_iff_of_subset]
  · refine ⟨i.address, ?_, ?_⟩
    · simpa [hexec, hno] using src.exec_lt hexec
    · simp [put, hasInsn_insertInsn]
  · intro a ha
    simp only [put, hasInsn_insertInsn, Finset.mem_filter, Bool.or_eq_false_iff] at ha ⊢
    exact ⟨ha.1, ha.2.1, ha.2.2.2⟩

theorem left_le_bound (st : State) : left src st ≤ src.bound :=
  (Finset.card_filter_le _ _).trans (Finset.card_range _).le

end

/-! ### Termination -/

section
variable {src : Source} {st r : State} {fuel cur : ℕ}

theorem decodeRun_succ (hstop : (hasInsn st.insns cur || !src.exec cur) = false) {i : Insn}
    (hdec : src.decode cur = some i) : decodeRun src (fuel + 1) cur st =
      if runsOn i.flow then decodeRun src fuel i.nextAddr (put src st i)
      else some (put src st i) := by
  rw [decodeRun, hstop, hdec]
  simp

theorem decodeRun_cases (h : decodeRun src (fuel + 1) cur st = some r) :
    (r = st ∧ Covered src st.insns cur) ∨
    ∃ i, i.address = cur ∧ src.decode i.address = some i ∧ src.exec i.address = true ∧
      hasInsn st.insns i.address = false ∧
      if runsOn i.flow then decodeRun src fuel i.nextAddr (put src st i) = some r
      else r = put src st i := by
  cases hstop : (hasInsn st.insns cur || !src.exec cur) with
  | true =>
    have hr : st = r := by simpa [decodeRun, hstop] using h
    have hcov : hasInsn st.insns cur = true ∨ src.exec cur = false := by simpa using hstop
    exact .inl ⟨hr.symm, hcov.imp_right .inl⟩
  | false =>
    cases hdec : src.decode cur with
    | none =>
      have hr : st = r := by simpa [decodeRun, hdec] using h
      exact .inl ⟨hr.symm, .inr (.inr hdec)⟩
    | some i =>
      obtain ⟨hno, hexec⟩ : hasInsn st.insns cur = false ∧ src.exec cur = true := by
        simpa using hstop
      obtain rfl := src.decode_address hdec
      refine .inr ⟨i, rfl, hdec, hexec, hno, ?_⟩
      rw [decodeRun_succ hstop hdec] at h
      split_ifs at h ⊢ with hruns
      · exact h
      · exact (Option.some.inj h).symm

theorem decodeRun_isSome (h : left src st < fuel) : (decodeRun src fuel cur st).isSome = true := by
  induction fuel generalizing cur st with
  | zero => omega
  | succ fuel ih =>
    cases hstop : (hasInsn st.insns cur || !src.exec cur) with
    | true => simp [decodeRun, hstop]
    | false =>
      cases hdec : src.decode cur with
      | none => simp [decodeRun, hdec]
      | some i =>
        have haddr := src.decode_address hdec
        obtain ⟨hno, hexec⟩ : hasInsn st.insns cur = false ∧ src.exec cur = true := by
          simpa using hstop
        rw [decodeRun_succ hstop hdec]
        split_ifs
        · have hless : left src (put src st i) < left src st :=
            left_put (by rwa [haddr]) (by rwa [haddr])
          exact ih (by omega)
        · rfl

theorem decodeRun_left (h : decodeRun src fuel cur st = some r) :
    r = st ∨ left src r < left src st := by
  induction fuel generalizing cur st with
  | zero => simp [decodeRun] at h
  | succ fuel ih =>
    obtain ⟨rfl, -⟩ | ⟨i, -, hdec, hexec, hno, h⟩ := decodeRun_cases h
    · exact .inl rfl
    · have hless : left src (put src st i) < left src st := left_put hexec hno
      split_ifs at h
      · rcases ih h with rfl | hleft
        · exact .inr hless
        · exact .inr (hleft.trans hless)
      · exact .inr (h ▸ hless)

/-- **The descent ends**: a run either decodes an address, or takes from the list. -/
theorem exists_drain (src : Source) (st : State) :
    ∃ fuel, (drain src fuel st).isSome = true := by
  cases hw : st.work with
  | nil => exact ⟨0, by simp [drain, hw]⟩
  | cons a work =>
    have hsome : (decodeRun src (src.bound + 1) a { st with work := work }).isSome = true :=
      decodeRun_isSome (Nat.lt_succ_of_le (left_le_bound _))
    obtain ⟨r, hr⟩ := Option.isSome_iff_exists.mp hsome
    obtain ⟨fuel, hfuel⟩ := exists_drain src r
    refine ⟨fuel + 1, ?_⟩
    rw [drain, hw]
    simpa [hr] using hfuel
termination_by (left src st, st.work.length)
decreasing_by
  have hleft : r = { st with work := work } ∨ left src r < left src { st with work := work } :=
    decodeRun_left hr
  rcases hleft with rfl | hleft
  · refine Prod.Lex.right _ ?_
    simp [hw]
  · exact Prod.Lex.left _ _ hleft

theorem drain_mono {fuel' : ℕ} (hle : fuel ≤ fuel') (h : drain src fuel st = some r) :
    drain src fuel' st = some r := by
  induction fuel generalizing st fuel' with
  | zero =>
    rw [drain] at h
    split_ifs at h with hw
    cases fuel' with
    | zero => rw [drain, if_pos hw, h]
    | succ n => rw [drain, hw, h]
  | succ fuel ih =>
    cases fuel' with
    | zero => omega
    | succ n =>
      rw [drain] at h ⊢
      cases hw : st.work with
      | nil => simpa [hw] using h
      | cons a work =>
        simp only [hw, Option.bind_eq_some_iff] at h ⊢
        obtain ⟨r', hr', hrest⟩ := h
        exact ⟨r', hr', ih (by omega) hrest⟩

end

/-! ### What every step keeps -/

theorem addTables_grows (src : Source) (st : State) : Grows src st (addTables src st) := by
  refine ⟨fun i hi => hi, fun t ht => ht, fun a ha => ?_, fun i hi => .inl hi⟩
  show ((found src st).lookup a).or (st.tables a) ≠ none
  cases (found src st).lookup a with
  | none => exact ha
  | some ts => simp

/-- What is kept when a start is taken from the list, an instruction is decoded, an address is
given up, and tables are added; `pend` is taken from the list and not decoded yet. -/
structure Steady (src : Source) (P : List ℕ → State → Prop) : Prop where
  take : ∀ {st a work}, P [] st → st.work = a :: work → P [a] { st with work := work }
  put : ∀ {st i}, P [i.address] st → src.exec i.address = true →
    src.decode i.address = some i → hasInsn st.insns i.address = false →
    P (if runsOn i.flow then [i.nextAddr] else []) (put src st i)
  settle : ∀ {st cur}, P [cur] st → Covered src st.insns cur → P [] st
  addTables : ∀ {st}, P [] st → st.work = [] → P [] (addTables src st)

section
variable {src : Source} {P : List ℕ → State → Prop} {st r : State} {fuel cur : ℕ}

theorem Steady.decodeRun (hP : Steady src P) (hst : P [cur] st)
    (h : decodeRun src fuel cur st = some r) : P [] r := by
  induction fuel generalizing cur st with
  | zero => simp [Drain.decodeRun] at h
  | succ fuel ih =>
    obtain ⟨rfl, hcov⟩ | ⟨i, rfl, hdec, hexec, hno, h⟩ := decodeRun_cases h
    · exact hP.settle hst hcov
    · have hput := hP.put hst hexec hdec hno
      split_ifs at h with hruns
      · rw [if_pos hruns] at hput
        exact ih hput h
      · rw [h]
        rwa [if_neg hruns] at hput

theorem Steady.drain (hP : Steady src P) (hst : P [] st) (h : drain src fuel st = some r) :
    P [] r ∧ r.work = [] := by
  induction fuel generalizing st with
  | zero =>
    rw [Drain.drain] at h
    split_ifs at h with hw
    cases h
    exact ⟨hst, hw⟩
  | succ fuel ih =>
    rw [Drain.drain] at h
    cases hw : st.work with
    | nil =>
      have hr : st = r := by simpa [hw] using h
      exact hr ▸ ⟨hst, hw⟩
    | cons a work =>
      simp only [hw, Option.bind_eq_some_iff] at h
      obtain ⟨r', hr', hrest⟩ := h
      exact ih (hP.decodeRun (hP.take hst hw) hr') hrest

theorem Steady.resolveFixpoint (hP : Steady src P) {p : State × Bool} (hst : P [] st)
    (hw : st.work = []) (h : resolveFixpoint src fuel st = some p) :
    P [] p.1 ∧ p.1.work = [] ∧ found src p.1 = [] := by
  induction fuel generalizing st p with
  | zero => simp [Drain.resolveFixpoint] at h
  | succ fuel ih =>
    rw [Drain.resolveFixpoint] at h
    split_ifs at h with hfound
    · cases h
      exact ⟨hst, hw, hfound⟩
    · obtain ⟨st', hdrain, hmap⟩ := Option.bind_eq_some_iff.mp h
      obtain ⟨q, hq, rfl⟩ := Option.map_eq_some_iff.mp hmap
      obtain ⟨hst', hw'⟩ := hP.drain (hP.addTables hst hw) hdrain
      have hq' : P [] q.1 ∧ q.1.work = [] ∧ found src q.1 = [] := ih hst' hw' hq
      exact hq'

end

theorem steady_grows (src : Source) (st : State) : Steady src fun _ st' => Grows src st st' where
  take := fun ⟨hi, he, ht, hf⟩ _ => ⟨hi, he, ht, hf⟩
  put h hexec hdec hno := h.trans (put_grows hdec hexec hno)
  settle h _ := h
  addTables h _ := h.trans (addTables_grows src _)

/-! ### Closure -/

def nexts (tables : JumpTables) (i : Insn) : List ℕ := (walkEdges tables i).map Prod.fst

/-- What is decoded leads to what is decoded, listed or in `pend`; executable callees are
entries; and nothing was decoded twice. -/
structure Inv (src : Source) (pend : List ℕ) (st : State) : Prop where
  closed : ∀ i ∈ st.insns, ∀ b ∈ nexts st.tables i,
    Covered src st.insns b ∨ b ∈ st.work ∨ b ∈ pend
  called : ∀ i ∈ st.insns, i.flow = .call → ∀ t, i.target = some t → src.exec t = true →
    t ∈ st.entries
  tabled : ∀ a, st.tables a ≠ none → hasInsn st.insns a = true
  once : st.decoded.Nodup
  decoded : ∀ a ∈ st.decoded, hasInsn st.insns a = true

section
variable {src : Source} {st r : State} {fuel cur : ℕ} {i : Insn}

theorem nexts_congr {tables tables' : JumpTables} (h : tables i.address = tables' i.address) :
    nexts tables i = nexts tables' i := by
  cases hf : i.flow <;> simp [nexts, walkEdges, hf, h]

theorem queued_of_nexts (hinv : st.tables i.address = none) {b : ℕ}
    (hb : b ∈ nexts (put src st i).tables i) :
    b ∈ (put src st i).work ∨ b ∈ (if runsOn i.flow then [i.nextAddr] else []) := by
  show b ∈ st.work ++ queued src st i ∨ _
  rw [List.mem_append]
  cases hf : i.flow with
  | fallthrough => exact .inr (by simpa [nexts, walkEdges, hf, runsOn] using hb)
  | call => exact .inr (by simpa [nexts, walkEdges, hf, runsOn] using hb)
  | ret => simp [nexts, walkEdges, hf] at hb
  | interrupt => simp [nexts, walkEdges, hf] at hb
  | jump => exact .inl (.inr (by simpa [nexts, walkEdges, hf, queued] using hb))
  | condJump =>
    have hb' : i.target = some b ∨ b = i.nextAddr := by
      simpa [nexts, walkEdges, hf] using hb
    rcases hb' with hb' | hb'
    · exact .inl (.inr (by simp [queued, hf, hb']))
    · exact .inr (by simp [runsOn, hb'])
  | indirect =>
    refine .inl (.inr ?_)
    cases hfound : foundTable src st i with
    | none => simp [nexts, walkEdges, hf, put, hfound, hinv] at hb
    | some ts => simpa [nexts, walkEdges, hf, put, hfound, queued] using hb

theorem Inv.tables_eq_none {pend : List ℕ} (hinv : Inv src pend st) {a : ℕ}
    (hno : hasInsn st.insns a = false) : st.tables a = none := by
  by_contra htab
  simp [hinv.tabled a htab] at hno

theorem put_inv (hinv : Inv src [i.address] st) (hno : hasInsn st.insns i.address = false) :
    Inv src (if runsOn i.flow then [i.nextAddr] else []) (put src st i) := by
  have hself : hasInsn (put src st i).insns i.address = true := by
    simp [put, hasInsn_insertInsn]
  have hmono : ∀ b, hasInsn st.insns b = true → hasInsn (put src st i).insns b = true := by
    intro b hb
    simp [put, hasInsn_insertInsn, hb]
  refine ⟨?_, ?_, ?_, ?_, ?_⟩
  · intro j hj b hb
    -- the new instruction has no table yet, and what it leads to is queued
    rcases mem_insertInsn hj with rfl | hj
    · exact .inr (queued_of_nexts (hinv.tables_eq_none hno) hb)
    · rw [nexts_congr (tables_put_of_ne (ne_of_hasInsn_false hno hj))] at hb
      rcases hinv.closed j hj b hb with (hhas | hrest) | hwork | hpend
      · exact .inl (.inl (hmono b hhas))
      · exact .inl (.inr hrest)
      · exact .inr (.inl (List.mem_append_left _ hwork))
      · have hbi : b = i.address := by simpa using hpend
        exact .inl (.inl (hbi ▸ hself))
  · intro j hj hf t ht hexec
    rcases mem_insertInsn hj with rfl | hj
    · by_cases hin : t ∈ st.entries
      · exact List.mem_append_left _ hin
      · refine List.mem_append_right _ ?_
        simp [newEntries, hf, ht, hexec, hin]
    · exact List.mem_append_left _ (hinv.called j hj hf t ht hexec)
  · intro a ha
    by_cases hai : a = i.address
    · rw [hai]
      exact hself
    · rw [tables_put_of_ne hai] at ha
      exact hmono a (hinv.tabled a ha)
  · refine List.nodup_cons.mpr ⟨fun hin => ?_, hinv.once⟩
    have hyes := hinv.decoded _ hin
    rw [hno] at hyes
    cases hyes
  · intro a ha
    rcases List.mem_cons.mp ha with rfl | ha
    · exact hself
    · exact hmono a (hinv.decoded a ha)

theorem Inv.take {a : ℕ} {work : List ℕ} (hinv : Inv src [] st) (hw : st.work = a :: work) :
    Inv src [a] { st with work := work } := by
  refine ⟨fun i hi b hb => (hinv.closed i hi b hb).imp_right fun hb => ?_, hinv.called,
    hinv.tabled, hinv.once, hinv.decoded⟩
  simpa [hw, or_comm] using hb

theorem Inv.settle (hinv : Inv src [cur] st) (hcov : Covered src st.insns cur) : Inv src [] st := by
  refine ⟨fun i hi b hb => ?_, hinv.called, hinv.tabled, hinv.once, hinv.decoded⟩
  rcases hinv.closed i hi b hb with h | h | h
  · exact .inl h
  · exact .inr (.inl h)
  · have hbc : b = cur := by simpa using h
    exact .inl (hbc ▸ hcov)

end

/-! ### Tables found later -/

section
variable {src : Source} {st r : State} {fuel : ℕ} {a : ℕ}

theorem mem_found_of_lookup {ts : List ℕ} (h : (found src st).lookup a = some ts) :
    (a, ts) ∈ found src st := by
  obtain ⟨l₁, l₂, heq, -⟩ := List.lookup_eq_some_iff.mp h
  rw [heq]
  simp

theorem of_mem_found {ts : List ℕ} (h : (a, ts) ∈ found src st) :
    st.tables a = none ∧
      ∃ i ∈ st.insns, i.address = a ∧ i.flow = .indirect ∧ src.resolve st.insns i = some ts := by
  obtain ⟨i, hi, hsome⟩ := List.mem_filterMap.mp h
  split_ifs at hsome with hind
  obtain ⟨ts', hts, heq⟩ := Option.map_eq_some_iff.mp hsome
  cases heq
  exact ⟨hind.2, i, hi, rfl, hind.1, hts⟩

theorem addTables_inv (hinv : Inv src [] st) (hw : st.work = []) :
    Inv src [] (addTables src st) := by
  refine ⟨fun i hi b hb => ?_, hinv.called, fun a ha => ?_, hinv.once, hinv.decoded⟩
  · cases hlook : (found src st).lookup i.address with
    | none =>
      have hsame : (addTables src st).tables i.address = st.tables i.address := by
        simp [addTables, hlook]
      rw [nexts_congr hsame] at hb
      rcases hinv.closed i hi b hb with h | h | h
      · exact .inl h
      · simp [hw] at h
      · cases h
    | some ts =>
      have hmem := mem_found_of_lookup hlook
      have htab : (addTables src st).tables i.address = some ts := by
        simp [addTables, hlook]
      -- only the edges of an indirect jump depend on the table that is found now
      by_cases hind : i.flow = .indirect
      · have hbt : b ∈ ts := by simpa [nexts, walkEdges, hind, htab] using hb
        by_cases hhas : hasInsn st.insns b = true
        · exact .inl (.inl hhas)
        · refine .inr (.inl (List.mem_filter.mpr ⟨?_, by simpa using hhas⟩))
          exact List.mem_flatMap.mpr ⟨_, hmem, hbt⟩
      · have hb' : b ∈ nexts st.tables i := by
          cases hf : i.flow <;> simp_all [nexts, walkEdges]
        rcases hinv.closed i hi b hb' with h | h | h
        · exact .inl h
        · simp [hw] at h
        · cases h
  · cases hlook : (found src st).lookup a with
    | none =>
      have hsame : (addTables src st).tables a = st.tables a := by simp [addTables, hlook]
      exact hinv.tabled a (hsame ▸ ha)
    | some ts =>
      obtain ⟨-, i, hi, hia, -⟩ := of_mem_found (mem_found_of_lookup hlook)
      exact hasInsn_iff.mpr ⟨i, hi, hia⟩

theorem steady_inv (src : Source) : Steady src (Inv src) where
  take := Inv.take
  put h _ _ hno := put_inv h hno
  settle := Inv.settle
  addTables := addTables_inv

theorem resolveFixpoint_mono {fuel' : ℕ} {p : State × Bool} (hle : fuel ≤ fuel')
    (h : resolveFixpoint src fuel st = some p) : resolveFixpoint src fuel' st = some p := by
  induction fuel generalizing st fuel' p with
  | zero => simp [resolveFixpoint] at h
  | succ fuel ih =>
    cases fuel' with
    | zero => omega
    | succ n =>
      rw [resolveFixpoint] at h ⊢
      split_ifs at h ⊢
      · exact h
      · obtain ⟨st', hdrain, hmap⟩ := Option.bind_eq_some_iff.mp h
        obtain ⟨q, hq, rfl⟩ := Option.map_eq_some_iff.mp hmap
        refine Option.bind_eq_some_iff.mpr ⟨st', drain_mono (by omega) hdrain, ?_⟩
        rw [ih (by omega) hq]
        rfl

/-- The addresses below `top` without a table. -/
def untabled (top : ℕ) (st : State) : ℕ :=
  ((Finset.range top).filter fun a => st.tables a = none).card

theorem untabled_lt {top : ℕ} {st' : State} (hgrows : Grows src (addTables src st) st')
    (hfound : found src st ≠ []) (htop : ∀ i ∈ st.insns, i.address < top) :
    untabled top st' < untabled top st := by
  obtain ⟨⟨a, ts⟩, hmem⟩ := List.exists_mem_of_ne_nil _ hfound
  have hsome : ((found src st).lookup a).isSome = true :=
    List.lookup_isSome_iff.mpr ⟨(a, ts), hmem, by simp⟩
  obtain ⟨ts', hlook⟩ := Option.isSome_iff_exists.mp hsome
  obtain ⟨hnone, i, hi, hia, -⟩ := of_mem_found (mem_found_of_lookup hlook)
  have htab : st'.tables a ≠ none := hgrows.tables a (by simp [addTables, hlook])
  apply Finset.card_lt_card
  rw [Finset.ssubset_iff_of_subset]
  · refine ⟨a, Finset.mem_filter.mpr ⟨Finset.mem_range.mpr ?_, hnone⟩, by simp [htab]⟩
    rw [← hia]
    exact htop i hi
  · intro b hb
    simp only [Finset.mem_filter] at hb ⊢
    refine ⟨hb.1, ?_⟩
    by_contra hold
    exact (addTables_grows src st |>.trans hgrows).tables b hold hb.2

/-- **The search for tables ends**: each round gives an address its table. -/
theorem exists_resolveFixpoint (src : Source) (st : State) :
    ∃ fuel, (resolveFixpoint src fuel st).isSome = true := by
  -- by induction on the addresses below `top` that have no table
  have hall : ∀ (top n : ℕ) (st : State), src.bound ≤ top → (∀ i ∈ st.insns, i.address < top) →
      untabled top st = n → ∃ fuel, (resolveFixpoint src fuel st).isSome = true := by
    intro top n
    induction n using Nat.strong_induction_on with
    | _ n ih =>
      intro st hbound htop hn
      by_cases hfound : found src st = []
      · exact ⟨1, by simp [resolveFixpoint, hfound]⟩
      · obtain ⟨f, hf⟩ := exists_drain src (addTables src st)
        obtain ⟨st', hst'⟩ := Option.isSome_iff_exists.mp hf
        have hgrows := ((steady_grows src _).drain (Grows.refl src _) hst').1
        have htop' : ∀ i ∈ st'.insns, i.address < top := by
          intro i hi
          rcases hgrows.fresh i hi with hold | ⟨hexec, -, -⟩
          · exact htop i hold
          · exact (src.exec_lt hexec).trans_le hbound
        obtain ⟨g, hg⟩ := ih (untabled top st') (hn ▸ untabled_lt hgrows hfound htop) st' hbound
          htop' rfl
        obtain ⟨q, hq⟩ := Option.isSome_iff_exists.mp hg
        refine ⟨max f g + 1, ?_⟩
        have hdrain := drain_mono (le_max_left f g) hst'
        have hrest := resolveFixpoint_mono (le_max_right f g) hq
        simp [resolveFixpoint, hfound, hdrain, hrest]
  have hle : ∀ l : List Insn, ∀ i ∈ l, i.address < (l.map fun i => i.address + 1).foldr max 0 := by
    intro l
    induction l with
    | nil => simp
    | cons j l ih =>
      intro i hi
      rw [List.map_cons, List.foldr_cons]
      rcases List.mem_cons.mp hi with rfl | hi
      · exact lt_of_lt_of_le (Nat.lt_succ_self _) (le_max_left _ _)
      · exact (ih i hi).trans_le (le_max_right _ _)
  exact hall (max src.bound ((st.insns.map fun i => i.address + 1).foldr max 0)) _ st
    (le_max_left _ _) (fun i hi => (hle _ i hi).trans_le (le_max_right _ _)) rfl

end

/-! ### What is decoded -/

/-- The descent goes on at `b` after `i`: where `i` goes on, or at a callee that is no entry
yet. -/
def LeadsTo (src : Source) (tables : JumpTables) (entries : List ℕ) (i : Insn) (b : ℕ) : Prop :=
  b ∈ nexts tables i ∨ i.flow = .call ∧ i.target = some b ∧ src.exec b = true ∧ b ∉ entries

/-- The descent comes to `b`, from `work` or from what is decoded. -/
def ComesTo (src : Source) (tables : JumpTables) (entries work : List ℕ) (insns : List Insn)
    (b : ℕ) : Prop :=
  b ∈ work ∨ ∃ i ∈ insns, LeadsTo src tables entries i b

/-- What a descent may have decoded at some time, in whatever order it goes. -/
inductive Descent (src : Source) (tables : JumpTables) (entries work : List ℕ) :
    List Insn → Prop
  | start : Descent src tables entries work []
  | decode {insns : List Insn} {i : Insn} (h : Descent src tables entries work insns)
    (hx : src.exec i.address = true) (hi : src.decode i.address = some i)
    (hno : hasInsn insns i.address = false)
    (hfrom : ComesTo src tables entries work insns i.address) :
    Descent src tables entries work (insertInsn i insns)

/-- Whatever is decoded, a jump is given its table or none; and where nothing is left to
decode but after jumps that are given none, nothing is left at all. -/
structure Settled (src : Source) (tables : JumpTables) (entries work : List ℕ) : Prop where
  early : ∀ insns, Descent src tables entries work insns → ∀ i ∈ insns, i.flow = .indirect →
    src.resolve insns i = none ∨ src.resolve insns i = tables i.address
  late : ∀ insns, Descent src tables entries work insns → (∀ b ∈ work, Covered src insns b) →
    (∀ i ∈ insns, ∀ b, LeadsTo src tables entries i b →
      Covered src insns b ∨ i.flow = .indirect ∧ src.resolve insns i = none) →
    ∀ i ∈ insns, ∀ b, LeadsTo src tables entries i b → Covered src insns b

def start (entries work : List ℕ) : State where
  insns := []
  entries := entries
  tables := fun _ => none
  work := work
  decoded := []

theorem start_inv (src : Source) (entries work : List ℕ) : Inv src [] (start entries work) :=
  ⟨by simp [start], by simp [start], by simp [start], List.nodup_nil, by simp [start]⟩

/-- A descent has decoded what is decoded and comes to all that is listed or in `pend`, and
nothing that it comes to is lost. -/
structure Traced (src : Source) (tables : JumpTables) (entries work pend : List ℕ) (st : State) :
    Prop where
  descent : Descent src tables entries work st.insns
  listed : ∀ b, b ∈ st.work ∨ b ∈ pend → ComesTo src tables entries work st.insns b
  roots : ∀ b ∈ work, Covered src st.insns b ∨ b ∈ st.work ∨ b ∈ pend
  base : ∀ t ∈ entries, t ∈ st.entries
  entries : ∀ t ∈ st.entries, t ∈ entries ∨ Covered src st.insns t ∨ t ∈ st.work ∨ t ∈ pend
  tables : ∀ a, st.tables a = none ∨ st.tables a = tables a

section
variable {src : Source} {tables : JumpTables} {entries work : List ℕ} {st r : State}
variable {fuel cur : ℕ} {i : Insn} {insns : List Insn}

theorem Descent.backed (h : Descent src tables entries work insns) :
    ∀ j ∈ insns, src.exec j.address = true ∧ src.decode j.address = some j := by
  induction h with
  | start => simp
  | decode h hx hi hno hfrom ih =>
    intro j hj
    rcases mem_insertInsn hj with rfl | hj
    · exact ⟨hx, hi⟩
    · exact ih j hj

theorem Descent.sorted (h : Descent src tables entries work insns) :
    insns.Pairwise (·.address < ·.address) := by
  induction h with
  | start => exact List.Pairwise.nil
  | decode h hx hi hno hfrom ih => exact sorted_insertInsn ih

theorem ComesTo.mono {insns' : List Insn} (hsub : ∀ j ∈ insns, j ∈ insns') {b : ℕ}
    (h : ComesTo src tables entries work insns b) :
    ComesTo src tables entries work insns' b :=
  h.imp_right fun ⟨j, hj, hb⟩ => ⟨j, hsub j hj, hb⟩

theorem Descent.mem_of_covered (h : Descent src tables entries work insns)
    (hcov : Covered src insns i.address) (hx : src.exec i.address = true)
    (hi : src.decode i.address = some i) : i ∈ insns := by
  rcases hcov with hhas | hno | hno
  · obtain ⟨k, hk, hka⟩ := hasInsn_iff.mp hhas
    have hdeck := (h.backed k hk).2
    rw [hka, hi] at hdeck
    cases hdeck
    exact hk
  · simp [hno] at hx
  · simp [hno] at hi

/-- A descent with nothing left to decode has decoded what any other has. -/
theorem Descent.subset {insns' work' : List _} (h : Descent src tables entries work insns)
    (h' : Descent src tables entries work' insns') (hsame : ∀ a, a ∈ work' ↔ a ∈ work)
    (hall : ∀ b, ComesTo src tables entries work' insns' b → Covered src insns' b) :
    ∀ j ∈ insns, j ∈ insns' := by
  induction h with
  | start => simp
  | @decode insns i h hx hi hno hfrom ih =>
    intro j hj
    rcases mem_insertInsn hj with rfl | hj
    · have hcomes : ComesTo src tables entries work' insns' j.address :=
        (hfrom.mono ih).imp_left (hsame _).mpr
      exact h'.mem_of_covered (hall _ hcomes) hx hi
    · exact ih j hj

theorem Descent.congr {work' : List ℕ} (hsame : ∀ a, a ∈ work' ↔ a ∈ work)
    (h : Descent src tables entries work' insns) : Descent src tables entries work insns := by
  induction h with
  | start => exact .start
  | decode h hx hi hno hfrom ih => exact .decode ih hx hi hno (hfrom.imp_left (hsame _).mp)

theorem Settled.congr {work' : List ℕ} (hsame : ∀ a, a ∈ work' ↔ a ∈ work)
    (h : Settled src tables entries work) : Settled src tables entries work' := by
  refine ⟨fun insns hd => h.early insns (hd.congr hsame), fun insns hd hroots => ?_⟩
  exact h.late insns (hd.congr hsame) fun b hb => hroots b ((hsame b).mpr hb)

/-! ### The tables of a descent -/

theorem filter_insertInsn {p : Insn → Bool} (hp : p i = false)
    (hno : hasInsn insns i.address = false) :
    (insertInsn i insns).filter p = insns.filter p := by
  induction insns with
  | nil => simp [insertInsn, hp]
  | cons k l ih =>
    rw [hasInsn, List.any_cons, Bool.or_eq_false_iff] at hno
    have hk : ¬ i.address = k.address := fun heq => by simp [heq] at hno
    rw [insertInsn]
    split_ifs
    · rw [List.filter_cons, if_neg (by simp [hp])]
    · rw [List.filter_cons, List.filter_cons, ih hno.2]

theorem insertInsn_of_lt (h : ∀ j ∈ insns, i.address < j.address) :
    insertInsn i insns = i :: insns := by
  cases insns with
  | nil => rfl
  | cons k l => rw [insertInsn, if_pos (h k List.mem_cons_self)]

theorem filter_insertInsn_of_pos {p : Insn → Bool} (hp : p i = true)
    (hsorted : insns.Pairwise (·.address < ·.address)) (hno : hasInsn insns i.address = false) :
    (insertInsn i insns).filter p = insertInsn i (insns.filter p) := by
  induction insns with
  | nil => simp [insertInsn, hp]
  | cons k l ih =>
    rw [hasInsn, List.any_cons, Bool.or_eq_false_iff] at hno
    have hk : ¬ i.address = k.address := fun heq => by simp [heq] at hno
    obtain ⟨hkl, hl⟩ := List.pairwise_cons.mp hsorted
    rw [insertInsn]
    split_ifs with hlt
    · rw [List.filter_cons, if_pos hp, insertInsn_of_lt]
      intro j hj
      rcases List.mem_cons.mp (List.mem_filter.mp hj).1 with rfl | hj
      · exact hlt
      · exact hlt.trans (hkl j hj)
    · rw [List.filter_cons, List.filter_cons, ih hl hno.2]
      split_ifs
      · rw [insertInsn, if_neg hlt, if_neg hk]
      · rfl

/-- The table of a jump is looked for before it. -/
theorem resolve_insertInsn (src : Source) (hno : hasInsn insns i.address = false) :
    src.resolve (insertInsn i insns) i = src.resolve insns i := by
  rw [Source.resolve, Source.resolve, filter_insertInsn (by simp) hno]

theorem mem_insertInsn_self (i : Insn) (insns : List Insn) : i ∈ insertInsn i insns := by
  induction insns with
  | nil => simp [insertInsn]
  | cons k l ih =>
    rw [insertInsn]
    split_ifs
    · simp
    · simp
    · exact List.mem_cons_of_mem _ ih

theorem foundTable_cases (hset : Settled src tables entries work)
    (hput : Descent src tables entries work (put src st i).insns)
    (hno : hasInsn st.insns i.address = false) :
    foundTable src st i = none ∨
      i.flow = .indirect ∧ foundTable src st i = tables i.address := by
  rw [foundTable]
  split_ifs with hf
  · have hearly := hset.early _ hput i (mem_insertInsn_self i _) hf
    rw [show (put src st i).insns = insertInsn i st.insns from rfl, resolve_insertInsn src hno]
      at hearly
    exact hearly.imp_right fun h => ⟨hf, h⟩
  · exact .inl rfl

theorem leadsTo_of_queued (hfound : foundTable src st i = none ∨
      i.flow = .indirect ∧ foundTable src st i = tables i.address)
    (hbase : ∀ t ∈ entries, t ∈ st.entries) {b : ℕ} (hb : b ∈ queued src st i) :
    LeadsTo src tables entries i b := by
  cases hf : i.flow with
  | fallthrough => simp [queued, hf] at hb
  | ret => simp [queued, hf] at hb
  | interrupt => simp [queued, hf] at hb
  | call =>
    simp only [queued, newEntries, hf, if_true, List.mem_filter, Option.mem_toList,
      Bool.and_eq_true, Bool.not_eq_true', List.contains_eq_mem, decide_eq_false_iff_not] at hb
    obtain ⟨ht, hxt, hno⟩ := hb
    exact .inr ⟨hf, ht, hxt, fun hin => hno (hbase b hin)⟩
  | jump => exact .inl (by simpa [nexts, walkEdges, hf, queued] using hb)
  | condJump =>
    have ht : i.target = some b := by simpa [queued, hf] using hb
    exact .inl (by simp [nexts, walkEdges, hf, ht])
  | indirect =>
    rcases hfound with hnone | ⟨-, htab⟩
    · simp [queued, hf, hnone] at hb
    · have hb' : b ∈ (tables i.address).getD [] := by simpa [queued, hf, htab] using hb
      exact .inl (by simpa [nexts, walkEdges, hf] using hb')

theorem put_traced (hset : Settled src tables entries work)
    (htr : Traced src tables entries work [i.address] st) (hexec : src.exec i.address = true)
    (hdec : src.decode i.address = some i) (hno : hasInsn st.insns i.address = false) :
    Traced src tables entries work (if runsOn i.flow then [i.nextAddr] else [])
      (put src st i) := by
  have hput : Descent src tables entries work (put src st i).insns :=
    .decode htr.descent hexec hdec hno (htr.listed _ (.inr (List.mem_singleton_self _)))
  have hfound := foundTable_cases hset hput hno
  have hself : i ∈ (put src st i).insns := mem_insertInsn_self i _
  -- what was settled before stays settled
  have hsettled : ∀ b, Covered src st.insns b ∨ b ∈ st.work ∨ b ∈ [i.address] →
      Covered src (put src st i).insns b ∨ b ∈ (put src st i).work := by
    intro b hb
    rcases hb with (hhas | hrest) | hwork | hpend
    · exact .inl (.inl (by simp [put, hasInsn_insertInsn, hhas]))
    · exact .inl (.inr hrest)
    · exact .inr (List.mem_append_left _ hwork)
    · have hbi : b = i.address := by simpa using hpend
      exact .inl (.inl (by simp [put, hasInsn_insertInsn, hbi]))
  refine ⟨hput, ?_, ?_, ?_, ?_, ?_⟩
  · intro b hb
    rcases hb with hb | hb
    · rcases List.mem_append.mp hb with hb | hb
      · exact (htr.listed b (.inl hb)).mono fun j hj => mem_insertInsn_of_mem hno hj
      · exact .inr ⟨i, hself, leadsTo_of_queued hfound htr.base hb⟩
    · refine .inr ⟨i, hself, .inl ?_⟩
      cases hf : i.flow <;> simp [runsOn, hf] at hb <;> simp [nexts, walkEdges, hf, hb]
  · intro b hb
    rcases hsettled b (htr.roots b hb) with h | h
    · exact .inl h
    · exact .inr (.inl h)
  · exact fun t ht => List.mem_append_left _ (htr.base t ht)
  · intro t ht
    rcases List.mem_append.mp ht with ht | ht
    · rcases htr.entries t ht with hold | hold
      · exact .inl hold
      · rcases hsettled t hold with h | h
        · exact .inr (.inl h)
        · exact .inr (.inr (.inl h))
    · refine .inr (.inr (.inl (List.mem_append_right _ ?_)))
      by_cases hf : i.flow = .call
      · simpa [queued, hf] using ht
      · simp [newEntries, hf] at ht
  · intro a
    by_cases hai : a = i.address
    · cases hft : foundTable src st i with
      | none => simpa [put, hft] using htr.tables a
      | some ts =>
        rcases hfound with hnone | ⟨-, htab⟩
        · simp [hnone] at hft
        · exact .inr (by simp [put, hft, hai, ← htab])
    · rw [tables_put_of_ne hai]
      exact htr.tables a

theorem Traced.settle (htr : Traced src tables entries work [cur] st)
    (hcov : Covered src st.insns cur) : Traced src tables entries work [] st := by
  have hsettled : ∀ b, Covered src st.insns b ∨ b ∈ st.work ∨ b ∈ [cur] →
      Covered src st.insns b ∨ b ∈ st.work ∨ b ∈ ([] : List ℕ) := by
    intro b hb
    rcases hb with h | h | h
    · exact .inl h
    · exact .inr (.inl h)
    · have hbc : b = cur := by simpa using h
      exact .inl (hbc ▸ hcov)
  refine ⟨htr.descent, fun b hb => htr.listed b (hb.imp_right (by simp)), ?_, htr.base, ?_,
    htr.tables⟩
  · exact fun b hb => hsettled b (htr.roots b hb)
  · exact fun t ht => (htr.entries t ht).imp_right (hsettled t)

theorem Traced.take {a : ℕ} {rest : List ℕ} (htr : Traced src tables entries work [] st)
    (hw : st.work = a :: rest) :
    Traced src tables entries work [a] { st with work := rest } := by
  have htake : ∀ b, b ∈ st.work ∨ b ∈ ([] : List ℕ) ↔ b ∈ rest ∨ b ∈ [a] := by
    intro b
    simp [hw, or_comm]
  exact ⟨htr.descent, fun b hb => htr.listed b ((htake b).mpr hb),
    fun b hb => (htr.roots b hb).imp_right (htake b).mp, htr.base,
    fun t ht => (htr.entries t ht).imp_right (Or.imp_right (htake t).mp), htr.tables⟩

/-! ### The tables found later -/

theorem addTables_traced (hset : Settled src tables entries work)
    (htr : Traced src tables entries work [] st) (hw : st.work = []) :
    Traced src tables entries work [] (addTables src st) := by
  have hright : ∀ a ts, (a, ts) ∈ found src st →
      tables a = some ts ∧ ∃ i ∈ st.insns, i.address = a ∧ i.flow = .indirect := by
    intro a ts hmem
    obtain ⟨-, i, hi, rfl, hf, hres⟩ := of_mem_found hmem
    rcases hset.early _ htr.descent i hi hf with hnone | htab
    · simp [hres] at hnone
    · exact ⟨htab ▸ hres, i, hi, rfl, hf⟩
  have hlost : ∀ b, Covered src st.insns b ∨ b ∈ st.work ∨ b ∈ ([] : List ℕ) →
      Covered src st.insns b := by
    intro b hb
    simpa [hw] using hb
  refine ⟨htr.descent, fun b hb => ?_, fun b hb => .inl (hlost b (htr.roots b hb)), htr.base,
    fun t ht => (htr.entries t ht).imp_right fun h => .inl (hlost t h), fun a => ?_⟩
  · have hb' : b ∈ (addTables src st).work := by simpa using hb
    obtain ⟨⟨a, ts⟩, hmem, hbt⟩ := List.mem_flatMap.mp (List.mem_filter.mp hb').1
    obtain ⟨htab, i, hi, rfl, hf⟩ := hright a ts hmem
    exact .inr ⟨i, hi, .inl (by simpa [nexts, walkEdges, hf, htab] using hbt)⟩
  · cases hlook : (found src st).lookup a with
    | none => simpa [addTables, hlook] using htr.tables a
    | some ts =>
      have htab := (hright a ts (mem_found_of_lookup hlook)).1
      exact .inr (by simp [addTables, hlook, htab])

theorem steady_traced (hset : Settled src tables entries work) :
    Steady src (Traced src tables entries work) where
  take := Traced.take
  put := put_traced hset
  settle := Traced.settle
  addTables := addTables_traced hset

/-- **What is decoded in the end**: a descent, and one with nothing left to decode. -/
theorem descent_whole (hset : Settled src tables entries work) {p : State × Bool} {fuel' : ℕ}
    (h : drain src fuel (start entries work) = some r)
    (hp : resolveFixpoint src fuel' r = some p) :
    Descent src tables entries work p.1.insns ∧
      ∀ b, ComesTo src tables entries work p.1.insns b → Covered src p.1.insns b := by
  have hstart : Traced src tables entries work [] (start entries work) :=
    ⟨.start, fun b hb => .inl (hb.resolve_right (by simp)), fun b hb => .inr (.inl hb),
      fun t ht => ht, fun t ht => .inl ht, fun a => .inl rfl⟩
  obtain ⟨hinv, hw⟩ := (steady_inv src).drain (start_inv src entries work) h
  obtain ⟨hinv', hw', hfound⟩ := (steady_inv src).resolveFixpoint hinv hw hp
  have htr := ((steady_traced hset).resolveFixpoint
    ((steady_traced hset).drain hstart h).1 hw hp).1
  have hdone : ∀ b, Covered src p.1.insns b ∨ b ∈ p.1.work ∨ b ∈ ([] : List ℕ) →
      Covered src p.1.insns b := by
    intro b hb
    simpa [hw'] using hb
  have hroots : ∀ b ∈ work, Covered src p.1.insns b := fun b hb => hdone b (htr.roots b hb)
  refine ⟨htr.descent, fun b hb => ?_⟩
  rcases hb with hb | ⟨i, hi, hb⟩
  · exact hroots b hb
  refine hset.late _ htr.descent hroots ?_ i hi b hb
  intro i hi b hb
  rcases hb with hb | ⟨hf, ht, hxt, hnew⟩
  · by_cases hf : i.flow = .indirect
    · rcases htr.tables i.address with hnone | htab
      · -- the last round has found no table for it
        refine .inr ⟨hf, ?_⟩
        have hno := List.filterMap_eq_nil_iff.mp hfound i hi
        rw [if_pos ⟨hf, hnone⟩] at hno
        simpa using hno
      · rw [← nexts_congr htab] at hb
        exact .inl (hdone b (hinv'.closed i hi b hb))
    · refine .inl (hdone b (hinv'.closed i hi b ?_))
      cases hflow : i.flow <;> simp_all [nexts, walkEdges]
  · have hentry := hinv'.called i hi hf b ht hxt
    exact .inl (hdone b ((htr.entries b hentry).resolve_left hnew))

end

/-! ### The whole descent -/

/-- Nothing that can be decoded is left after what is decoded, its executable callees are
entries, and no address was decoded twice. -/
structure Closed (src : Source) (st : State) : Prop where
  nexts : ∀ i ∈ st.insns, ∀ b ∈ nexts st.tables i, src.exec b = true → src.decode b ≠ none →
    hasInsn st.insns b = true
  called : ∀ i ∈ st.insns, i.flow = .call → ∀ t, i.target = some t → src.exec t = true →
    t ∈ st.entries
  once : st.decoded.Nodup

theorem Inv.done {src : Source} {st : State} (hinv : Inv src [] st) (hw : st.work = []) :
    Closed src st := by
  refine ⟨fun i hi b hb hexec hdec => ?_, hinv.called, hinv.once⟩
  rcases hinv.closed i hi b hb with (hhas | hno | hno) | hwork | hpend
  · exact hhas
  · rw [hno] at hexec
    cases hexec
  · exact absurd hno hdec
  · simp [hw] at hwork
  · cases hpend

def plainInsn (a len : ℕ) (text : String) (flow : Flow) : Insn :=
  { address := a, len := len, text := text, flow := flow, target := none, callName := none,
    raw := ⟨flow == .ret, .konst 0 32, none, none, none, none, false, none, 0⟩ }

def switchInsn (a : ℕ) : Option Insn :=
  if a = 0x1000 then some (plainInsn a 3 "cmp eax, 1" .fallthrough)
  else if a = 0x1003 then some (plainInsn a 7 "mov eax, [eax*4 + 0x2000]" .fallthrough)
  else if a = 0x100a then some (plainInsn a 2 "jmp eax" .indirect)
  else if 0x1010 ≤ a ∧ a < 0x1013 then some (plainInsn a 1 "ret" .ret)
  else none

def cmpView : JumpTable.View :=
  ⟨.cmp, false, .register 0, .immediate .imm8to32, none, none, 0, 0, none, 1⟩

def movView : JumpTable.View :=
  ⟨.mov, false, .register 0, .memory, none, some 0, 4, 0x2000, none, 0⟩

/-- The table of the jump has two entries; a third word after it is an address of code. -/
def switchSource : Source where
  sections :=
    [⟨".text", 0x1000, List.replicate 0x20 0, true⟩,
      ⟨".rdata", 0x2000, [0x10, 0x10, 0, 0, 0x11, 0x10, 0, 0, 0x12, 0x10, 0, 0], false⟩]
  ptr := 4
  view i :=
    if i.address = 0x1000 then cmpView
    else if i.address = 0x1003 then movView
    else if i.address = 0x100a then
      ⟨.other, false, .register 0, .other, none, none, 0, 0, none, 0⟩
    else ⟨.other, true, .other, .other, none, none, 0, 0, none, 0⟩
  decode := switchInsn
  decode_address := by
    intro a i h
    simp only [switchInsn] at h
    split_ifs at h <;> cases h <;> rfl

def switchTables (a : ℕ) : Option (List ℕ) := if a = 0x100a then some [0x1010, 0x1011] else none

def cmpInsn : Insn := plainInsn 0x1000 3 "cmp eax, 1" .fallthrough
def movInsn : Insn := plainInsn 0x1003 7 "mov eax, [eax*4 + 0x2000]" .fallthrough
def jmpInsn : Insn := plainInsn 0x100a 2 "jmp eax" .indirect

theorem switchInsn_cases {a : ℕ} {i : Insn} (h : switchInsn a = some i) :
    i = cmpInsn ∨ i = movInsn ∨ i = jmpInsn ∨ 0x1010 ≤ i.address ∧ i.flow = .ret := by
  simp only [switchInsn] at h
  split_ifs at h with h0 h1 h2 h3
  · exact .inl (by simp [cmpInsn, ← Option.some.inj h, h0])
  · exact .inr (.inl (by simp [movInsn, ← Option.some.inj h, h1]))
  · exact .inr (.inr (.inl (by simp [jmpInsn, ← Option.some.inj h, h2])))
  · exact .inr (.inr (.inr (by simp [← Option.some.inj h, plainInsn, h3])))

theorem leadsTo_mov {b : ℕ} (h : LeadsTo switchSource switchTables [] movInsn b) : b = 0x100a := by
  rcases h with h | ⟨h, -⟩
  · simpa [nexts, walkEdges, movInsn, plainInsn, Insn.nextAddr] using h
  · cases h

/-- What is decoded before the jump: the load is so after the comparison only. -/
theorem switch_before {insns : List Insn}
    (h : Descent switchSource switchTables [] [0x1000, 0x100a] insns) :
    insns.filter (·.address < 0x100a) ∈ [[], [cmpInsn], [cmpInsn, movInsn]] := by
  induction h with
  | start => simp
  | @decode insns i h hx hi hno hfrom ih =>
    have hold : ∀ j ∈ insns.filter (·.address < 0x100a), j.address ≠ i.address :=
      fun j hj => ne_of_hasInsn_false hno (List.mem_filter.mp hj).1
    rcases switchInsn_cases hi with rfl | rfl | rfl | ⟨hret, -⟩
    · rw [filter_insertInsn_of_pos rfl h.sorted hno]
      simp only [List.mem_cons, List.not_mem_nil, or_false] at ih
      rcases ih with h0 | h1 | h2
      · simp [h0, insertInsn]
      · exact absurd rfl (hold cmpInsn (by simp [h1]))
      · exact absurd rfl (hold cmpInsn (by simp [h2]))
    · -- only the comparison leads to the load
      have hcmp : cmpInsn ∈ insns := by
        rcases hfrom with hroot | ⟨j, hj, hlead⟩
        · simp [movInsn, plainInsn] at hroot
        · rcases switchInsn_cases (h.backed j hj).2 with rfl | rfl | rfl | ⟨-, hf⟩
          · exact hj
          · exact absurd (leadsTo_mov hlead) (by decide)
          · simp [LeadsTo, nexts, walkEdges, jmpInsn, plainInsn, switchTables, movInsn] at hlead
          · simp [LeadsTo, nexts, walkEdges, hf] at hlead
      have hmem : cmpInsn ∈ insns.filter (·.address < 0x100a) :=
        List.mem_filter.mpr ⟨hcmp, rfl⟩
      rw [filter_insertInsn_of_pos rfl h.sorted hno]
      simp only [List.mem_cons, List.not_mem_nil, or_false] at ih
      rcases ih with h0 | h1 | h2
      · simp [h0] at hmem
      · simp [h1, insertInsn, cmpInsn, movInsn, plainInsn]
      · exact absurd rfl (hold movInsn (by simp [h2]))
    · rw [filter_insertInsn rfl hno]
      exact ih
    · rw [filter_insertInsn (by simp; omega) hno]
      exact ih

theorem switch_resolve {insns : List Insn}
    (h : Descent switchSource switchTables [] [0x1000, 0x100a] insns) :
    switchSource.resolve insns jmpInsn =
      if movInsn ∈ insns then some [0x1010, 0x1011] else none := by
  have hmov : movInsn ∈ insns ↔ movInsn ∈ insns.filter (·.address < 0x100a) := by
    simp [movInsn, plainInsn]
  have hcases := switch_before h
  simp only [List.mem_cons, List.not_mem_nil, or_false] at hcases
  simp only [hmov]
  rw [Source.resolve, show jmpInsn.address = 0x100a from rfl]
  rcases hcases with h0 | h1 | h2
  · rw [h0]
    decide +kernel
  · rw [h1]
    decide +kernel
  · rw [h2]
    decide +kernel

theorem switch_settled : Settled switchSource switchTables [] [0x1000, 0x100a] := by
  have hjmp : ∀ {insns i}, Descent switchSource switchTables [] [0x1000, 0x100a] insns →
      i ∈ insns → i.flow = .indirect → i = jmpInsn := by
    intro insns i h hi hf
    rcases switchInsn_cases (h.backed i hi).2 with rfl | rfl | rfl | ⟨-, hret⟩
    · cases hf
    · cases hf
    · rfl
    · simp [hf] at hret
  refine ⟨fun insns h i hi hf => ?_, fun insns h hroots hlead i hi b hb => ?_⟩
  · rw [hjmp h hi hf, switch_resolve h]
    split_ifs
    · exact .inr rfl
    · exact .inl rfl
  · refine (hlead i hi b hb).resolve_right fun ⟨hf, hnone⟩ => ?_
    -- the comparison is a root, and the load comes after it
    have hmem : ∀ j, Covered switchSource insns j.address → switchSource.exec j.address = true →
        switchSource.decode j.address = some j → j ∈ insns :=
      fun j => h.mem_of_covered
    have hcmp : cmpInsn ∈ insns := hmem cmpInsn (hroots _ (by decide)) (by decide) (by decide)
    have hafter := hlead cmpInsn hcmp 0x1003 (.inl (by decide))
    have hmov : movInsn ∈ insns :=
      hmem movInsn (hafter.resolve_right (by simp [cmpInsn, plainInsn])) (by decide) (by decide)
    rw [hjmp h hi hf, switch_resolve h, if_pos hmov] at hnone
    cases hnone

def addresses (r : State) : List ℕ := r.insns.map (·.address)

end Aret.Drain
