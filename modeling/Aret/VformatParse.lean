/-
The parser of the formatters reads what a format string says.
-/
import Aret.Vformat

namespace Aret.Vformat

/-! ### The buffer -/

theorem length_numeral_le {n : ℕ} (h : n < 10 ^ 10) : (numeral n).length ≤ 10 := by
  unfold numeral
  split_ifs with hzero
  · decide
  · rw [List.length_map, List.length_reverse]
    exact (Nat.digits_length_le_iff (by decide) n).mpr h

theorem length_intText_le (w : UInt32) : (intText w).length ≤ 11 := by
  have hw := UInt32.toNat_lt w
  unfold intText
  split_ifs
  · rw [List.length_cons]
    exact Nat.succ_le_succ (length_numeral_le (by omega))
  · exact (length_numeral_le (by omega)).trans (by decide)

theorem length_flagLoop_spec_le (a : ℕ → UInt32) (p spec : Units) (ai : ℕ)
    (h : spec.length ≤ 74) : (flagLoop a p spec ai).1.length ≤ 74 := by
  induction p generalizing spec ai with
  | nil => exact h
  | cons c p ih =>
    rw [flagLoop]
    split_ifs with hc hstar
    · have hroom : spec.length < 64 := hc.2
      have htext := length_intText_le (a ai)
      exact ih _ _ (by rw [List.length_append]; omega)
    · have hroom : spec.length < 64 := hc.2
      exact ih _ _ (by rw [List.length_append, List.length_singleton]; omega)
    · exact h

theorem length_push_le {spec : Units} (c : ℕ) (h : spec.length ≤ 78) :
    (push spec c).length ≤ 78 := by
  unfold push
  split_ifs with hroom
  · rw [List.length_append, List.length_singleton]
    exact hroom
  · exact h

theorem length_modLoop_spec_le (p : Units) (m : Mods) (h : m.spec.length ≤ 78) :
    (modLoop p m).1.spec.length ≤ 78 := by
  induction p generalizing m with
  | nil => exact h
  | cons c p ih =>
    rw [modLoop]
    split_ifs
    · exact ih _ (length_push_le c h)
    · exact h

theorem length_parseSpec_le {a : ℕ → UInt32} {p : Units} {ai : ℕ} {d : Parsed}
    (h : parseSpec a p ai = some d) : d.mods.spec.length < specSize := by
  have hflags := length_flagLoop_spec_le a p [unit '%'] ai (by decide)
  have hsize : (sizeStep (flagLoop a p [unit '%'] ai).1
      (flagLoop a p [unit '%'] ai).2.1).1.length ≤ 78 := by
    unfold sizeStep
    split
    · split_ifs
      · rw [List.length_append]
        simp only [List.length_cons, List.length_nil]
        omega
      · dsimp only
        omega
    all_goals exact hflags.trans (by decide)
  have hmods : (specMods a p ai).1.spec.length ≤ 78 := length_modLoop_spec_le _ _ hsize
  unfold parseSpec at h
  dsimp only at h
  split at h
  · cases h
  · rename_i c rest heq
    split_ifs at h
    rw [← Option.some.inj h]
    exact Nat.lt_of_le_of_lt (length_push_le _ hmods) (by decide)

/-! ### The flags -/

/-- There is room before each of the flags, and no negative argument is a precision. -/
def Fits (a : ℕ → UInt32) : Units → Units → ℕ → Prop
  | [], _, _ => True
  | c :: p, flags, ai =>
    if isFlag c then
      1 + flags.length < specSize - 16 ∧
        if c = unit '*' then
          ¬(flags.getLast? = some (unit '.') ∧ isNegative (a ai)) ∧
            Fits a p (flags ++ intText (a ai)) (ai + 1)
        else Fits a p (flags ++ [c]) ai
    else True

variable {a : ℕ → UInt32} {p flags : Units} {ai : ℕ}

theorem flagLoop_eq (h : Fits a p flags ai) :
    flagLoop a p (unit '%' :: flags) ai =
      (unit '%' :: (flagPart a p flags ai).1, (flagPart a p flags ai).2) := by
  induction p generalizing flags ai with
  | nil => rfl
  | cons c p ih =>
    rw [flagLoop, flagPart]
    rw [Fits] at h
    by_cases hc : isFlag c
    · rw [if_pos hc] at h
      obtain ⟨hroom, hrest⟩ := h
      have hlen : (unit '%' :: flags).length < specSize - 16 := by
        rw [List.length_cons]
        omega
      rw [if_pos ⟨hc, hlen⟩, if_pos hc]
      by_cases hstar : c = unit '*'
      · rw [if_pos hstar] at hrest
        rw [if_pos hstar, if_pos hstar, if_neg hrest.1]
        exact ih hrest.2
      · rw [if_neg hstar] at hrest
        rw [if_neg hstar, if_neg hstar]
        exact ih hrest
    · rw [if_neg (fun hboth => hc hboth.1), if_neg hc]

/-! ### The modifiers -/

theorem sizeStep_snd (spec p : Units) : (sizeStep spec p).2 = (sizePrefix p).2 := by
  unfold sizeStep
  split
  · rfl
  · rfl
  · rename_i hno64 hno32
    rw [sizePrefix]
    · exact hno64
    · exact hno32
  · rename_i hno64 hno32 hno
    rw [sizePrefix]
    · exact hno64
    · exact hno32
    · exact hno

theorem sizeStep_fst {spec p : Units}
    (h : spec.length + (sizePrefix p).1.length ≤ specSize - 2) :
    (sizeStep spec p).1 = spec ++ (sizePrefix p).1 := by
  unfold sizeStep
  split
  · have hroom : spec.length < specSize - 3 := by
      have hlen : spec.length + 2 ≤ specSize - 2 := h
      rw [specSize] at hlen ⊢
      omega
    exact if_pos hroom
  · exact (List.append_nil spec).symm
  · rename_i hno64 hno32
    rw [sizePrefix, List.append_nil]
    · exact hno64
    · exact hno32
  · rename_i hno64 hno32 hno
    rw [sizePrefix, List.append_nil]
    · exact hno64
    · exact hno32
    · exact hno

theorem modLoop_snd (p : Units) (m : Mods) : (modLoop p m).2 = p.dropWhile isModifier := by
  induction p generalizing m with
  | nil => rfl
  | cons c p ih =>
    rw [modLoop, List.dropWhile_cons]
    split_ifs
    · exact ih _
    · rfl

theorem longlong_see (m : Mods) (c : ℕ) (mods : Units) :
    ((m.see c).longlong ||
        decide (1 < mods.count (unit 'l') + (m.see c).seenL.toNat) ||
        mods.contains (unit 'L') || mods.contains (unit 'j')) =
      (m.longlong || decide (1 < (c :: mods).count (unit 'l') + m.seenL.toNat) ||
        (c :: mods).contains (unit 'L') || (c :: mods).contains (unit 'j')) := by
  have hlL : unit 'L' ≠ unit 'l' := by decide
  have hlj : unit 'j' ≠ unit 'l' := by decide
  obtain ⟨spec, longlong, seenL, seenH⟩ := m
  dsimp only [Mods.see]
  rw [Bool.eq_iff_iff]
  simp only [Bool.or_eq_true, Bool.and_eq_true, beq_iff_eq, decide_eq_true_eq,
    List.contains_cons, List.count_cons]
  by_cases hc : c = unit 'l'
  · subst hc
    cases seenL <;> simp [hlL, hlj, hlL.symm, hlj.symm]
  · have hbeq : (c == unit 'l') = false := beq_false_of_ne hc
    cases seenL <;> simp [hc, hbeq, @eq_comm _ _ c] <;> tauto

theorem modLoop_eq (p : Units) (m : Mods)
    (h : m.spec.length + (p.takeWhile isModifier).length ≤ specSize - 2) :
    modLoop p m =
      (⟨m.spec ++ p.takeWhile isModifier,
        m.longlong || decide (1 < (p.takeWhile isModifier).count (unit 'l') + m.seenL.toNat) ||
          (p.takeWhile isModifier).contains (unit 'L') ||
          (p.takeWhile isModifier).contains (unit 'j'),
        m.seenL || (p.takeWhile isModifier).contains (unit 'l'),
        m.seenH || (p.takeWhile isModifier).contains (unit 'h')⟩, p.dropWhile isModifier) := by
  induction p generalizing m with
  | nil =>
    have hfew : ¬1 < 0 + m.seenL.toNat := by
      have hle := Bool.toNat_le m.seenL
      omega
    rw [modLoop, List.takeWhile_nil, List.dropWhile_nil, List.append_nil, List.count_nil,
      decide_eq_false hfew]
    simp
  | cons c p ih =>
    rw [modLoop]
    by_cases hc : isModifier c
    · rw [List.takeWhile_cons_of_pos hc] at h ⊢
      rw [List.length_cons] at h
      have hpush : (m.see c).spec = m.spec ++ [c] := if_pos (by omega)
      have hlen : (m.see c).spec.length + (p.takeWhile isModifier).length ≤ specSize - 2 := by
        rw [hpush, List.length_append, List.length_singleton]
        omega
      rw [if_pos hc, ih (m.see c) hlen, longlong_see, hpush, List.dropWhile_cons_of_pos hc,
        List.append_assoc, List.singleton_append]
      refine congrArg (fun m => (m, p.dropWhile isModifier)) ?_
      rw [Mods.mk.injEq]
      refine ⟨rfl, rfl, ?_, ?_⟩
      · rw [Mods.see, Bool.or_assoc, Bool.beq_comm, List.contains_cons]
      · rw [Mods.see, Bool.or_assoc, Bool.beq_comm, List.contains_cons]
    · rw [if_neg hc, List.takeWhile_cons_of_neg hc, List.dropWhile_cons_of_neg hc]
      have hfew : ¬1 < 0 + m.seenL.toNat := by
        have hle := Bool.toNat_le m.seenL
        omega
      rw [List.append_nil, List.count_nil, decide_eq_false hfew]
      simp

/-! ### The conversion -/

theorem conversion_eq_some {d : Conversion} {rest : Units} {ai' : ℕ}
    (h : conversion a p ai = some (d, rest, ai')) :
    ∃ size mods, d.mods = size ++ mods ∧ d.flags = (flagPart a p [] ai).1 ∧
      ai' = (flagPart a p [] ai).2.2 ∧
      size = (sizePrefix (flagPart a p [] ai).2.1).1 ∧
      mods = (sizePrefix (flagPart a p [] ai).2.1).2.2.takeWhile isModifier ∧
      (sizePrefix (flagPart a p [] ai).2.1).2.2.dropWhile isModifier = d.conv :: rest ∧
      d.longlong = ((sizePrefix (flagPart a p [] ai).2.1).2.1 ||
        decide (1 < mods.count (unit 'l')) || mods.contains (unit 'L') ||
          mods.contains (unit 'j')) ∧
      d.seenL = mods.contains (unit 'l') ∧ d.seenH = mods.contains (unit 'h') := by
  unfold conversion at h
  dsimp only at h
  split at h
  · cases h
  · rename_i c rest' heq
    obtain ⟨rfl, rfl, rfl⟩ := Option.some.inj h
    exact ⟨_, _, rfl, rfl, rfl, rfl, rfl, heq, rfl, rfl, rfl⟩

theorem parseSpec_eq {d : Conversion} {rest : Units} {ai' : ℕ}
    (h : conversion a p ai = some (d, rest, ai')) (hfits : Fits a p [] ai)
    (hroom : d.flags.length + d.mods.length + 1 < specSize - 2)
    (hconv : 0 < d.conv ∧ d.conv < 2 ^ 8) :
    parseSpec a p ai = some ⟨⟨d.spec, d.longlong, d.seenL, d.seenH⟩, d.conv, rest, ai'⟩ := by
  obtain ⟨size, mods, hmods, hflags, rfl, hsize, hmods', hdrop, hll, hl, hh⟩ :=
    conversion_eq_some h
  have hlen : d.mods.length = size.length + mods.length := by rw [hmods, List.length_append]
  have hflag := flagLoop_eq hfits
  have hstep : sizeStep (unit '%' :: d.flags) (flagPart a p [] ai).2.1 =
      (unit '%' :: d.flags ++ size, (sizePrefix (flagPart a p [] ai).2.1).2) := by
    refine Prod.ext ?_ (sizeStep_snd _ _)
    rw [hsize]
    refine sizeStep_fst ?_
    rw [← hsize, List.length_cons]
    omega
  have hspec : specMods a p ai =
      (⟨unit '%' :: (d.flags ++ d.mods), d.longlong, d.seenL, d.seenH⟩, d.conv :: rest) := by
    rw [specMods, hflag, ← hflags, hstep, modLoop_eq]
    · rw [← hmods', hdrop, hll, hl, hh, hmods]
      simp
    · rw [← hmods', List.length_append, List.length_cons]
      omega
  have hpush : push (unit '%' :: (d.flags ++ d.mods)) d.conv = d.spec := by
    have hroom' : (unit '%' :: (d.flags ++ d.mods)).length < specSize - 2 := by
      rw [List.length_cons, List.length_append]
      omega
    rw [push, if_pos hroom', Conversion.spec, Conversion.specWith, List.cons_append]
  rw [parseSpec, hspec, hflag]
  dsimp only
  rw [Nat.mod_eq_of_lt hconv.2, if_neg hconv.1.ne', hpush]

theorem parseSpec_eq_none (h : conversion a p ai = none) (hfits : Fits a p [] ai) :
    parseSpec a p ai = none := by
  have hend : (sizePrefix (flagPart a p [] ai).2.1).2.2.dropWhile isModifier = [] := by
    unfold conversion at h
    dsimp only at h
    split at h
    · assumption
    · cases h
  have hmods : (specMods a p ai).2 = [] := by
    rw [specMods, flagLoop_eq hfits, modLoop_snd, sizeStep_snd, hend]
  rw [parseSpec]
  dsimp only
  rw [hmods]

/-! ### The specification for `%s` -/

theorem lt_of_mem_numeral {n c : ℕ} (h : c ∈ numeral n) : c < unit ':' := by
  unfold numeral at h
  split_ifs at h
  · rw [List.mem_singleton.mp h]
    decide
  · obtain ⟨digit, hdigit, rfl⟩ := List.mem_map.mp h
    have hlt := Nat.digits_lt_base (by decide) (List.mem_reverse.mp hdigit)
    have hzero : unit '0' = 48 := rfl
    have hcolon : unit ':' = 58 := rfl
    omega

theorem lt_of_mem_intText {w : UInt32} {c : ℕ} (h : c ∈ intText w) : c < unit ':' := by
  unfold intText at h
  split_ifs at h
  · rcases List.mem_cons.mp h with rfl | hc
    · decide
    · exact lt_of_mem_numeral hc
  · exact lt_of_mem_numeral h

theorem lt_of_isFlag {c : ℕ} (h : isFlag c) : c < unit ':' := by
  have hall : ∀ c ∈ ['-', '+', ' ', '#', '0', '1', '2', '3', '4', '5', '6', '7', '8', '9', '.',
      '*'].map unit, c < unit ':' := by decide
  exact hall c (of_decide_eq_true h)

theorem lt_of_mem_flagPart (a : ℕ → UInt32) (p flags : Units) (ai : ℕ)
    (h : ∀ c ∈ flags, c < unit ':') : ∀ c ∈ (flagPart a p flags ai).1, c < unit ':' := by
  induction p generalizing flags ai with
  | nil => exact h
  | cons c p ih =>
    rw [flagPart]
    split_ifs with hc hstar hneg
    · exact ih _ _ fun u hu => h u (List.mem_of_mem_dropLast hu)
    · refine ih _ _ fun u hu => ?_
      rcases List.mem_append.mp hu with hu | hu
      · exact h u hu
      · exact lt_of_mem_intText hu
    · refine ih _ _ fun u hu => ?_
      rcases List.mem_append.mp hu with hu | hu
      · exact h u hu
      · rw [List.mem_singleton.mp hu]
        exact lt_of_isFlag hc
    · exact h

theorem isModifier_of_mem {d : Conversion} {rest : Units} {ai' : ℕ}
    (h : conversion a p ai = some (d, rest, ai')) : ∀ c ∈ d.mods, isModifier c := by
  obtain ⟨size, mods, hd, -, -, hsize, hmods, -⟩ := conversion_eq_some h
  intro c hc
  rw [hd] at hc
  rcases List.mem_append.mp hc with hc | hc
  · rw [hsize] at hc
    unfold sizePrefix at hc
    split at hc
    · have hall : ∀ c ∈ [unit 'l', unit 'l'], isModifier c := by decide
      exact hall c hc
    all_goals exact absurd hc List.not_mem_nil
  · rw [hmods] at hc
    exact List.mem_takeWhile_imp hc

theorem plainSpec_eq {d : Conversion} {rest : Units} {ai' : ℕ}
    (h : conversion a p ai = some (d, rest, ai'))
    (hroom : d.flags.length + d.mods.length + 1 < specSize - 2)
    (hkind : kind d.conv = .string) :
    plainSpec d.spec = d.specWith [] (unit 's') := by
  have hflags : ∀ c ∈ d.flags, c < unit ':' := by
    obtain ⟨-, -, -, hflags, -⟩ := conversion_eq_some h
    rw [hflags]
    exact lt_of_mem_flagPart a p [] ai fun c hc => absurd hc List.not_mem_nil
  have hlow : ∀ c, c < unit ':' → isModifier c = false ∧ c ≠ unit 'S' := by
    have hall : ∀ c ∈ ['l', 'h', 'L', 'z', 'j', 't'].map unit, ¬c < unit ':' := by decide
    intro c hc
    refine ⟨decide_eq_false fun hmem => hall c hmem hc, ?_⟩
    rintro rfl
    exact absurd hc (by decide)
  have hkeep : d.flags.filter (fun c => !isModifier c) = d.flags := by
    rw [List.filter_eq_self]
    intro c hc
    rw [(hlow c (hflags c hc)).1]
    rfl
  have hdrop : d.mods.filter (fun c => !isModifier c) = [] := by
    rw [List.filter_eq_nil_iff]
    intro c hc
    rw [isModifier_of_mem h c hc]
    exact Bool.false_ne_true
  have hsame : d.flags.map (fun c => if c = unit 'S' then unit 's' else c) = d.flags := by
    refine (List.map_congr_left fun c hc => ?_).trans (List.map_id _)
    exact if_neg (hlow c (hflags c hc)).2
  have hconv : isModifier d.conv = false ∧
      (if d.conv = unit 'S' then unit 's' else d.conv) = unit 's' := by
    have hmem : d.conv = unit 's' ∨ d.conv = unit 'S' := by
      unfold kind at hkind
      split_ifs at hkind with h₁ h₂ h₃ h₄ h₅
      simpa using h₅
    rcases hmem with hs | hs <;> rw [hs] <;> decide
  have hlen : (unit '%' :: (d.flags ++ [unit 's'])).length ≤ specSize - 2 := by
    rw [List.length_cons, List.length_append, List.length_singleton]
    omega
  have hpercent : (!isModifier (unit '%')) = true := by decide
  have hkeepConv : (!isModifier d.conv) = true := by rw [hconv.1]; rfl
  have hpercent' : ¬unit '%' = unit 'S' := by decide
  rw [plainSpec, Conversion.spec, Conversion.specWith, Conversion.specWith,
    List.filter_cons_of_pos (p := fun c => !isModifier c) hpercent, List.filter_append,
    List.filter_append, hkeep, hdrop,
    List.filter_cons_of_pos (p := fun c => !isModifier c) hkeepConv, List.filter_nil,
    List.append_nil, List.map_cons, List.map_append, hsame, List.map_singleton, hconv.2,
    if_neg hpercent', List.take_of_length_le hlen]

end Aret.Vformat
