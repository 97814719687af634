/-
What the writer of profile files makes of the lines of a file.
-/
import Aret.Ini

namespace Aret.Ini

open HostPath (lower)
open Lines (body bodies IsLines)

/-- A text without newlines, `=`, `;`, `#`, brackets and quotes, and without blanks at its ends. -/
structure Plain extends CStr where
  chars : ∀ c ∈ bytes, c ∉ ([10, 61, 59, 35, 91, 93, 34] : List UInt8)
  head : ∀ c ∈ bytes.head?, isBlankOrCr c = false
  last : ∀ c ∈ bytes.getLast?, isBlankOrCr c = false

theorem lower_eq_iff {c d : UInt8} (hd : d < 65) : lower c = d ↔ c = d := by
  unfold lower
  split
  · rename_i h
    constructor
    · intro heq
      rw [← heq] at hd
      grind
    · rintro rfl
      grind
  · rfl

theorem isBlank_of_isBlankOrCr {c : UInt8} (h : isBlankOrCr c = false) : isBlank c = false := by
  simp only [isBlankOrCr, isBlank, decide_eq_false_iff_not, not_or] at h ⊢
  exact ⟨h.1, h.2.1⟩

namespace Plain

variable (p : Plain)

theorem notMem {c : UInt8} (hc : c ∈ ([10, 61, 59, 35, 91, 93, 34] : List UInt8)) :
    c ∉ p.bytes := fun h => p.chars c h hc

theorem rdropWhile_bytes (test : UInt8 → Bool)
    (htest : ∀ c, isBlankOrCr c = false → test c = false) :
    p.bytes.rdropWhile test = p.bytes := by
  rw [List.rdropWhile_eq_self_iff]
  intro hne h
  have hlast := p.last _ (List.getLast?_eq_getLast_of_ne_nil hne)
  exact absurd h (by rw [htest _ hlast]; exact Bool.false_ne_true)

theorem dropWhile_bytes_append {rest : Bytes}
    (h : p.bytes = [] → ∀ c ∈ rest.head?, isBlank c = false) :
    (p.bytes ++ rest).dropWhile isBlank = p.bytes ++ rest := by
  rcases hp : p.bytes with _ | ⟨c, cs⟩
  · rcases rest with _ | ⟨c, cs⟩
    · rfl
    · rw [List.nil_append, List.dropWhile_cons, h hp c rfl]
      rfl
  · have hc := isBlank_of_isBlankOrCr (p.head c (by rw [hp]; rfl))
    rw [List.cons_append, List.dropWhile_cons, hc]
    rfl

theorem iniCleanValue_bytes (cap : ℕ) : iniCleanValue p.bytes cap = p.bytes.take (cap - 1) := by
  have hstart : p.bytes.dropWhile isBlank = p.bytes := by
    have h := @dropWhile_bytes_append p [] fun _ _ h => nomatch h
    rwa [List.append_nil] at h
  have hquotes : ¬ (2 ≤ p.bytes.length ∧ p.bytes.head? = some 34 ∧ p.bytes.getLast? = some 34) :=
    fun h => p.notMem (by decide) (List.mem_of_mem_head? h.2.1)
  unfold iniCleanValue
  simp only [hstart, p.rdropWhile_bytes isBlankOrCr fun _ h => h, if_neg hquotes]

end Plain

/-! ### Printed lines -/

variable {sec key value : Plain}

theorem takeWhile_ne_append {b : Bytes} {c : UInt8} (h : c ∉ b) (rest : Bytes) :
    (b ++ c :: rest).takeWhile (· ≠ c) = b := by
  have hall : ∀ d ∈ b, decide (d ≠ c) = true := fun d hd => decide_eq_true fun heq => h (heq ▸ hd)
  rw [List.takeWhile_append_of_pos hall, List.takeWhile_cons_of_neg (by simp), List.append_nil]

theorem dropWhile_ne_append {b : Bytes} {c : UInt8} (h : c ∉ b) (rest : Bytes) :
    (b ++ c :: rest).dropWhile (· ≠ c) = c :: rest := by
  have hall : ∀ d ∈ b, decide (d ≠ c) = true := fun d hd => decide_eq_true fun heq => h (heq ▸ hd)
  rw [List.dropWhile_append_of_pos hall, List.dropWhile_cons_of_neg (by simp)]

theorem body_setting : body newline (setting key.toCStr value.toCStr) =
    key.bytes ++ 61 :: value.bytes := by
  have hmem : newline ∉ key.bytes ++ 61 :: value.bytes := by
    intro h
    rcases List.mem_append.mp h with h | h
    · exact key.notMem (by decide) h
    · rcases List.mem_cons.mp h with h | h
      · exact absurd h (by decide)
      · exact value.notMem (by decide) h
  have heq : setting key.toCStr value.toCStr = (key.bytes ++ 61 :: value.bytes) ++ [newline] := by
    rw [setting, List.append_assoc, List.cons_append]
  rw [heq, Lines.body_ended hmem]

theorem kind_setting :
    kind (setting key.toCStr value.toCStr) = .entry key.bytes value.bytes := by
  have hstart : lineStart (setting key.toCStr value.toCStr) = key.bytes ++ 61 :: value.bytes := by
    rw [lineStart, body_setting]
    refine key.dropWhile_bytes_append fun _ c hc => ?_
    rw [← Option.some.inj hc]
    rfl
  have hhead : ∀ c, (key.bytes ++ 61 :: value.bytes).head? = some c → c ∈ key.bytes ∨ c = 61 := by
    intro c hc
    rcases hk : key.bytes with _ | ⟨d, ds⟩
    · rw [hk] at hc
      exact Or.inr (Option.some.inj hc).symm
    · rw [hk] at hc
      exact Or.inl (List.mem_cons.mpr (Or.inl (Option.some.inj hc).symm))
  have hne : ∀ c ∈ ([10, 61, 59, 35, 91, 93, 34] : List UInt8), c ≠ 61 →
      (key.bytes ++ 61 :: value.bytes).head? ≠ some c := by
    intro c hc h61 h
    rcases hhead c h with hmem | heq
    · exact key.notMem hc hmem
    · exact h61 heq
  have hcr : (key.bytes ++ 61 :: value.bytes).head? ≠ some 13 := by
    intro h
    rcases hhead 13 h with hmem | h
    · rcases hk : key.bytes with _ | ⟨d, ds⟩
      · rw [hk] at hmem
        exact absurd hmem List.not_mem_nil
      · rw [hk] at h
        have hd := key.head d (by rw [hk]; rfl)
        rw [Option.some.inj h] at hd
        exact absurd hd (by decide)
    · exact absurd h (by decide)
  have hentry : keyValue? (key.bytes ++ 61 :: value.bytes) = some (key.bytes, value.bytes) := by
    have hno : (61 : UInt8) ∉ key.bytes := key.notMem (by decide)
    rw [keyValue?, dropWhile_ne_append hno, takeWhile_ne_append hno,
      key.rdropWhile_bytes isBlank fun _ => isBlank_of_isBlankOrCr]
  have hstarts : key.bytes ++ 61 :: value.bytes ≠ [] ∧
      (key.bytes ++ 61 :: value.bytes).head? ∉ [some 59, some 35, some 13] := by
    refine ⟨by simp, ?_⟩
    simp only [List.mem_cons, List.not_mem_nil, or_false, not_or]
    exact ⟨hne 59 (by decide) (by decide), hne 35 (by decide) (by decide), hcr⟩
  rw [kind, hstart, if_neg (hne 91 (by decide) (by decide)), if_pos hstarts, hentry]

theorem kind_header : kind (header sec.toCStr) = .header sec.bytes := by
  have hmem : newline ∉ 91 :: (sec.bytes ++ [93]) := by
    intro h
    rcases List.mem_cons.mp h with h | h
    · exact absurd h (by decide)
    · rcases List.mem_append.mp h with h | h
      · exact sec.notMem (by decide) h
      · exact absurd h (by decide)
  have heq : header sec.toCStr = (91 :: (sec.bytes ++ [93])) ++ [newline] := by
    rw [header, List.cons_append, List.append_assoc]
    rfl
  have hstart : lineStart (header sec.toCStr) = 91 :: (sec.bytes ++ [93]) := by
    rw [lineStart, heq, Lines.body_ended hmem]
    rfl
  rw [kind, hstart]
  exact (if_pos rfl).trans (congrArg Kind.header (takeWhile_ne_append (sec.notMem (by decide)) []))

/-! ### The pieces of a line -/

inductive Piece
  | copied (text : Bytes)
  | printed (text : Bytes)

def Piece.text : Piece → Bytes
  | .copied text => text
  | .printed text => text

def emit (cap : ℕ) : List Piece → OutBuf UInt8 → Option (OutBuf UInt8)
  | [], b => some b
  | .copied text :: ps, b => (b.append text).bind (emit cap ps)
  | .printed text :: ps, b =>
    (b.print 0 (sizeSub cap b.pos) text).bind (emit cap ps)

def flushed (key : CStr) (value : Option CStr) (f : Flags) : List Piece :=
  match value with
  | some v => if f.inTarget ∧ f.keyDone = false then [.printed (setting key v)] else []
  | none => []

def edited (sec key : CStr) (value : Option CStr) (f : Flags) (line : Bytes) :
    List Piece × Flags :=
  match kind line with
  | .header name =>
    let m := iniIeq name sec.bytes
    let done := f.keyDone || !(flushed key value f).isEmpty
    (flushed key value f ++ [.copied line], ⟨m, done, f.sectionSeen || m⟩)
  | .entry k _ =>
    if f.inTarget ∧ iniIeq k key.bytes then
      (value.toList.map fun v => .printed (setting key v), { f with keyDone := true })
    else ([.copied line], f)
  | .other => ([.copied line], f)

def deleted (sec : CStr) (f : Flags) (line : Bytes) : List Piece × Flags :=
  match kind line with
  | .header name =>
    let m := iniIeq name sec.bytes
    (if m then [] else [.copied line], { f with inTarget := m, sectionSeen := f.sectionSeen || m })
  | _ => (if f.inTarget then [] else [.copied line], f)

def all (step : Flags → Bytes → List Piece × Flags) : Flags → List Bytes → List Piece × Flags
  | f, [] => ([], f)
  | f, line :: rest => ((step f line).1 ++ (all step (step f line).2 rest).1,
      (all step (step f line).2 rest).2)

theorem emit_append {cap : ℕ} {ps qs : List Piece} {b : OutBuf UInt8} :
    emit cap (ps ++ qs) b = (emit cap ps b).bind (emit cap qs) := by
  induction ps generalizing b with
  | nil => rfl
  | cons p ps ih =>
    cases p with
    | copied text => simp only [List.cons_append, emit, ih, Option.bind_assoc]
    | printed text => simp only [List.cons_append, emit, ih, Option.bind_assoc]

theorem head_of_entry {t k v : Bytes} {c : UInt8} (hc : t.head? = some c) (h61 : c ≠ 61)
    (hblank : isBlank c = false) (h : keyValue? t = some (k, v)) : k.head? = some c := by
  obtain ⟨cs, rfl⟩ : ∃ cs, t = c :: cs := by
    rcases t with _ | ⟨d, cs⟩
    · exact nomatch hc
    · exact ⟨cs, by rw [Option.some.inj hc]⟩
  rw [keyValue?] at h
  split at h
  · exact nomatch h
  · obtain ⟨rfl, _⟩ := Prod.mk.inj (Option.some.inj h)
    have htake : (c :: cs).takeWhile (· ≠ 61) = c :: cs.takeWhile (· ≠ 61) :=
      List.takeWhile_cons_of_pos (decide_eq_true h61)
    rw [htake]
    have hne : (c :: cs.takeWhile (· ≠ 61)).rdropWhile isBlank ≠ [] := by
      intro hnil
      have hall := List.rdropWhile_eq_nil_iff.mp hnil c List.mem_cons_self
      rw [hblank] at hall
      exact Bool.false_ne_true hall
    obtain ⟨rest, hrest⟩ := List.rdropWhile_prefix isBlank (l := c :: cs.takeWhile (· ≠ 61))
    rcases hk : (c :: cs.takeWhile (· ≠ 61)).rdropWhile isBlank with _ | ⟨d, ds⟩
    · exact absurd hk hne
    · rw [hk] at hrest
      exact congrArg some (List.cons.inj hrest).1

theorem kind_cases (line : Bytes) :
    ((lineStart line).head? = some 91 ∧ kind line = .header (headerName (lineStart line))) ∨
    ((lineStart line).head? ≠ some 91 ∧
      ∃ k v, kind line = .entry k v ∧ keyValue? (lineStart line) = some (k, v)) ∨
    ((lineStart line).head? ≠ some 91 ∧ kind line = .other ∧
      ∀ key : Plain, (keyValue? (lineStart line)).any (fun e => iniIeq e.1 key.bytes) = false) := by
  rw [kind]
  by_cases hh : (lineStart line).head? = some 91
  · exact Or.inl ⟨hh, if_pos hh⟩
  refine Or.inr ?_
  by_cases ht : lineStart line ≠ [] ∧ (lineStart line).head? ∉ [some 59, some 35, some 13]
  · simp only [if_neg hh, if_pos ht]
    rcases hentry : keyValue? (lineStart line) with _ | ⟨k, v⟩
    · exact Or.inr ⟨hh, rfl, fun _ => rfl⟩
    · exact Or.inl ⟨hh, k, v, rfl, rfl⟩
  · refine Or.inr ⟨hh, by simp only [if_neg hh, if_neg ht], fun key => ?_⟩
    rcases hentry : keyValue? (lineStart line) with _ | ⟨k, v⟩
    · rfl
    · -- the line is not empty, so that it starts with a comment or a carriage return
      have hne : lineStart line ≠ [] := by
        intro hnil
        rw [hnil] at hentry
        cases hentry
      obtain ⟨c, hc, hhead⟩ : ∃ c : UInt8, (c = 59 ∨ c = 35 ∨ c = 13) ∧
          (lineStart line).head? = some c := by
        have hmem := not_and_not_right.mp ht hne
        simp only [List.mem_cons, List.not_mem_nil, or_false] at hmem
        rcases hmem with h | h | h
        · exact ⟨59, .inl rfl, h⟩
        · exact ⟨35, .inr (.inl rfl), h⟩
        · exact ⟨13, .inr (.inr rfl), h⟩
      have hfacts : c ≠ 61 ∧ isBlank c = false ∧ c < 65 := by
        rcases hc with rfl | rfl | rfl <;> decide
      have hk := head_of_entry hhead hfacts.1 hfacts.2.1 hentry
      rw [Option.any_some, Bool.eq_false_iff]
      intro hieq
      have hmap := iniIeq_iff.mp hieq
      have hkey : (key.bytes.head?).map lower = some (lower c) := by
        rw [← List.head?_map, ← hmap, List.head?_map, hk]
        rfl
      obtain ⟨d, hd, hlow⟩ := Option.map_eq_some_iff.mp hkey
      have hcd : d = c := by
        rw [(lower_eq_iff hfacts.2.2).mpr rfl] at hlow
        exact (lower_eq_iff hfacts.2.2).mp hlow
      subst hcd
      rcases hc with rfl | rfl | rfl
      · exact key.notMem (by decide) (List.mem_of_mem_head? hd)
      · exact key.notMem (by decide) (List.mem_of_mem_head? hd)
      · exact absurd (key.head _ hd) (by decide)

theorem iniLine_eq {cap : ℕ} {sec : CStr} {value : Option CStr} {f : Flags} {b : OutBuf UInt8}
    {line : Bytes} :
    iniLine cap sec (some key.toCStr) value ⟨f, b⟩ line =
      (emit cap (edited sec key.toCStr value f line).1 b).map
        (Rewriter.mk (edited sec key.toCStr value f line).2) := by
  rcases kind_cases line with ⟨hh, hk⟩ | ⟨hh, k, v, hk, hentry⟩ | ⟨hh, hk, hentry⟩
  · rw [iniLine.eq_def, if_pos hh, edited, hk]
    simp only [Option.isNone_some, Bool.false_eq_true, and_false, if_false]
    cases value with
    | none =>
      simp [flushed, emit, Rewriter.copy]
    | some v =>
      by_cases hf : f.inTarget = true ∧ f.keyDone = false
      · simp [flushed, hf, emit, Rewriter.copy, Rewriter.print, Option.bind_map, Option.map_bind,
          Function.comp_def]
      · simp [flushed, hf, emit, Rewriter.copy]
  · rw [iniLine.eq_def, if_neg hh, edited, hk]
    simp only [hentry, Option.any_some]
    by_cases hf : f.inTarget = true ∧ iniIeq k key.bytes = true
    · simp only [if_pos hf]
      cases value with
      | none => rfl
      | some v => simp [emit, Rewriter.print, Function.comp_def]
    · simp only [if_neg hf]
      simp [emit, Rewriter.copy]
  · rw [iniLine.eq_def, if_neg hh, edited, hk]
    simp [hentry key, emit, Rewriter.copy]

theorem iniLine_none {cap : ℕ} {sec : CStr} {value : Option CStr} {f : Flags} {b : OutBuf UInt8}
    {line : Bytes} :
    iniLine cap sec none value ⟨f, b⟩ line =
      (emit cap (deleted sec f line).1 b).map (Rewriter.mk (deleted sec f line).2) := by
  rcases kind_cases line with ⟨hh, hk⟩ | ⟨hh, k, v, hk, _⟩ | ⟨hh, hk, _⟩
  · rw [iniLine, if_pos hh, deleted, hk]
    by_cases hm : iniIeq (headerName (lineStart line)) sec.bytes = true
    · simp [hm, emit]
    · simp [hm, emit, Rewriter.copy]
  all_goals
    rw [iniLine, if_neg hh, deleted, hk]
    by_cases hf : f.inTarget = true
    · simp [hf, emit]
    · simp [hf, emit, Rewriter.copy]

theorem foldlM_iniLine {cap : ℕ} {sec : CStr} {key value : Option CStr}
    {step : Flags → Bytes → List Piece × Flags}
    (hstep : ∀ f b line, iniLine cap sec key value ⟨f, b⟩ line =
      (emit cap (step f line).1 b).map (Rewriter.mk (step f line).2)) :
    ∀ (ls : List Bytes) (f : Flags) (b : OutBuf UInt8),
      ls.foldlM (iniLine cap sec key value) ⟨f, b⟩ =
        (emit cap (all step f ls).1 b).map (Rewriter.mk (all step f ls).2) := by
  intro ls
  induction ls with
  | nil => exact fun _ _ => rfl
  | cons line ls ih =>
    intro f b
    rw [List.foldlM_cons, hstep, all, emit_append, Option.map_bind]
    rcases emit cap (step f line).1 b with _ | b'
    · rfl
    · exact ih _ _

/-! ### The bindings of the pieces -/

def texts (ps : List Piece) : List Bytes := ps.map Piece.text

/-- The bindings are those of `old`, but for some that are taken away and some that are new. -/
def SameBut (p : Binding → Bool) (new old : List Binding) : Prop :=
  new.filter (fun x => !p x) = old.filter fun x => !p x

theorem SameBut.append {p : Binding → Bool} {new new' old old' : List Binding}
    (h : SameBut p new old) (h' : SameBut p new' old') :
    SameBut p (new ++ new') (old ++ old') := by
  rw [SameBut, List.filter_append, List.filter_append, h, h']

theorem SameBut.find? {p q : Binding → Bool} {new old : List Binding} (h : SameBut p new old)
    (hq : ∀ x, q x = true → p x = false) : new.find? q = old.find? q := by
  have hfilter : ∀ xs : List Binding, (xs.filter fun x => !p x).find? q = xs.find? q := by
    intro xs
    rw [List.find?_filter]
    congr 1
    funext x
    cases hx : q x with
    | false => simp
    | true => simp [hq x hx]
  rw [← hfilter, h, hfilter]

/-- Some lines are written for others, where a key is set or deleted. -/
structure Edit (sec key : CStr) (value : Option Plain) (cur : Option Bytes) (f : Flags)
    (new old : List Bytes) (f' : Flags) : Prop where
  last : lastSection cur new = lastSection cur old
  same : SameBut (Binding.names sec key) (bindings cur new) (bindings cur old)
  set : ∀ x ∈ bindings cur new, x.names sec key = true → ∃ v, value = some v ∧ x.value = v.bytes
  target : f'.inTarget = inside sec (lastSection cur old)
  done : value.isSome → f'.keyDone = true →
    f.keyDone = true ∨ ∃ x ∈ bindings cur new, x.names sec key = true
  seen : value.isSome → (f.sectionSeen = true → f.keyDone = true ∨ f.inTarget = true) →
    f'.sectionSeen = true → f'.keyDone = true ∨ f'.inTarget = true

variable {cur : Option Bytes} {f f' f'' : Flags} {new new' old old' : List Bytes} {line : Bytes}

theorem Edit.append {sec key : CStr} {value : Option Plain}
    (h : Edit sec key value cur f new old f')
    (h' : Edit sec key value (lastSection cur old) f' new' old' f'') :
    Edit sec key value cur f (new ++ new') (old ++ old') f'' where
  last := by rw [lastSection_append, lastSection_append, h.last, h'.last]
  same := by
    rw [bindings_append, bindings_append, h.last]
    exact h.same.append h'.same
  set x hx hname := by
    rw [bindings_append, h.last] at hx
    rcases List.mem_append.mp hx with hx | hx
    · exact h.set x hx hname
    · exact h'.set x hx hname
  target := by rw [lastSection_append, h'.target]
  done hsome hdone := by
    rw [bindings_append, h.last]
    rcases h'.done hsome hdone with hdone' | ⟨x, hx, hname⟩
    · rcases h.done hsome hdone' with hd | ⟨x, hx, hname⟩
      · exact Or.inl hd
      · exact Or.inr ⟨x, List.mem_append_left _ hx, hname⟩
    · exact Or.inr ⟨x, List.mem_append_right _ hx, hname⟩
  seen hsome hseen := h'.seen hsome (h.seen hsome hseen)

theorem edit_nil {sec key : CStr} {value : Option Plain} (h : f.inTarget = inside sec cur) :
    Edit sec key value cur f [] [] f :=
  ⟨rfl, rfl, fun _ hx => absurd hx List.not_mem_nil, h, fun _ => Or.inl, fun _ hseen => hseen⟩

theorem names_self {s : Bytes} (hs : iniIeq s sec.bytes = true) (v : Bytes) :
    Binding.names sec.toCStr key.toCStr ⟨s, key.bytes, v⟩ = true := by
  rw [Binding.names, Bool.and_eq_true]
  exact ⟨hs, iniIeq_iff.mpr rfl⟩

theorem bindings_setting (s : Bytes) :
    bindings (some s) [setting key.toCStr value.toCStr] = [⟨s, key.bytes, value.bytes⟩] := by
  rw [bindings, kind_setting]
  rfl

theorem exists_of_inside {sec : CStr} (h : inside sec cur = true) :
    ∃ s, cur = some s ∧ iniIeq s sec.bytes = true := by
  rcases cur with _ | s
  · exact nomatch h
  · exact ⟨s, rfl, h⟩

theorem edit_printed {v : Plain} (h : f.inTarget = inside sec.toCStr cur) (hin : f.inTarget = true)
    (hlast : lastSection cur old = cur)
    (hold : ∀ x ∈ bindings cur old, x.names sec.toCStr key.toCStr = true) :
    Edit sec.toCStr key.toCStr (some v) cur f [setting key.toCStr v.toCStr] old
      { f with keyDone := true } := by
  obtain ⟨s, rfl, hs⟩ := exists_of_inside (h.symm.trans hin)
  have hbind := @bindings_setting key v s
  have hname := @names_self sec key s hs v.bytes
  refine ⟨?_, ?_, fun x hx _ => ⟨v, rfl, ?_⟩, hlast.symm ▸ h, fun _ _ => Or.inr ?_,
    fun _ _ _ => Or.inl rfl⟩
  · rw [hlast, lastSection, kind_setting]
    rfl
  · rw [SameBut, hbind, List.filter_cons_of_neg (by simp [hname]), List.filter_nil]
    exact (List.filter_eq_nil_iff.mpr fun x hx => by simp [hold x hx]).symm
  · rw [hbind, List.mem_singleton] at hx
    rw [hx]
  · rw [hbind]
    exact ⟨_, List.mem_singleton_self _, hname⟩

theorem edit_copied {sec key : CStr} {value : Option Plain} (hold : ∀ x ∈ bindings cur [line],
      x.names sec key = false)
    (ht : f'.inTarget = inside sec (lastSection cur [line])) (hdone : f'.keyDone = f.keyDone)
    (hseen : value.isSome → (f.sectionSeen = true → f.keyDone = true ∨ f.inTarget = true) →
      f'.sectionSeen = true → f'.keyDone = true ∨ f'.inTarget = true) :
    Edit sec key value cur f [line] [line] f' where
  last := rfl
  same := rfl
  set x hx hname := by
    rw [hold x hx] at hname
    exact nomatch hname
  target := ht
  done _ h := Or.inl (hdone ▸ h)
  seen := hseen

theorem edit_edited {value : Option Plain} (h : f.inTarget = inside sec.toCStr cur) :
    Edit sec.toCStr key.toCStr value cur f
      (texts (edited sec.toCStr key.toCStr (value.map Plain.toCStr) f line).1) [line]
      (edited sec.toCStr key.toCStr (value.map Plain.toCStr) f line).2 := by
  rw [edited]
  cases hk : kind line with
  | header name =>
    have hbind : bindings cur [line] = [] := by
      rw [bindings, hk]
      rfl
    have hlast : lastSection cur [line] = some name := by
      rw [lastSection, hk]
      rfl
    have hnone : ∀ x ∈ bindings cur [line], x.names sec.toCStr key.toCStr = false := by
      rw [hbind]
      exact fun x hx => absurd hx List.not_mem_nil
    -- the header is copied behind the key that may be missing
    have hcopy : ∀ f₁ : Flags, (value.isSome → f.inTarget = true → f₁.keyDone = true) →
        f₁.inTarget = f.inTarget → f₁.sectionSeen = f.sectionSeen →
        Edit sec.toCStr key.toCStr value cur f₁ [line] [line]
          ⟨iniIeq name sec.bytes, f₁.keyDone, f.sectionSeen || iniIeq name sec.bytes⟩ := by
      intro f₁ hdone hin hs
      refine edit_copied hnone (by rw [hlast]; rfl) rfl fun hsome hseen hor => ?_
      rcases Bool.or_eq_true_iff.mp hor with hf | hm
      · rcases hseen (hs.trans hf) with hd | hi
        · exact Or.inl hd
        · exact Or.inl (hdone hsome (hin ▸ hi))
      · exact Or.inr hm
    rcases value with _ | v
    · simpa [flushed, texts, Piece.text] using
        hcopy f (fun hsome => Bool.noConfusion hsome) rfl rfl
    · by_cases hf : f.inTarget = true ∧ f.keyDone = false
      · have hprint := @edit_printed sec key cur f [] v h hf.1 rfl
          fun x hx => absurd hx List.not_mem_nil
        have happ := hprint.append (hcopy { f with keyDone := true } (fun _ _ => rfl) rfl rfl)
        simpa [flushed, hf, texts, Piece.text] using happ
      · have hdone : f.inTarget = true → f.keyDone = true := by
          intro hin
          by_contra hno
          exact hf ⟨hin, Bool.eq_false_iff.mpr hno⟩
        simpa [flushed, hf, texts, Piece.text] using hcopy f (fun _ => hdone) rfl rfl
  | entry k v =>
    have hlast : lastSection cur [line] = cur := by
      rw [lastSection, hk]
      rfl
    have hbind : bindings cur [line] = (cur.map fun s => ⟨s, k, v⟩).toList := by
      rw [bindings, hk]
      exact List.append_nil _
    by_cases hhit : f.inTarget = true ∧ iniIeq k key.bytes = true
    · have hold : ∀ x ∈ bindings cur [line], x.names sec.toCStr key.toCStr = true := by
        obtain ⟨s, rfl, hs⟩ := exists_of_inside (h.symm.trans hhit.1)
        intro x hx
        rw [hbind, Option.map_some, Option.toList_some, List.mem_singleton] at hx
        rw [hx, Binding.names, Bool.and_eq_true]
        exact ⟨hs, hhit.2⟩
      rcases value with _ | w
      · simp only [if_pos hhit, Option.map_none, Option.toList_none, List.map_nil]
        refine ⟨hlast.symm, ?_, fun x hx => absurd hx List.not_mem_nil, hlast.symm ▸ h,
          (fun hsome => Bool.noConfusion hsome), fun hsome => Bool.noConfusion hsome⟩
        exact (List.filter_eq_nil_iff.mpr fun x hx => by simp [hold x hx]).symm
      · simp only [if_pos hhit]
        exact edit_printed h hhit.1 hlast hold
    · have hnone : ∀ x ∈ bindings cur [line], x.names sec.toCStr key.toCStr = false := by
        intro x hx
        rw [hbind] at hx
        rcases cur with _ | s
        · exact absurd hx List.not_mem_nil
        · rw [Option.map_some, Option.toList_some, List.mem_singleton] at hx
          rw [hx, Binding.names, Bool.and_eq_false_iff]
          by_contra hno
          rw [not_or, Bool.not_eq_false, Bool.not_eq_false] at hno
          exact hhit ⟨h.trans hno.1, hno.2⟩
      simp only [if_neg hhit]
      exact edit_copied hnone (hlast.symm ▸ h) rfl fun _ hseen => hseen
  | other =>
    have hlast : lastSection cur [line] = cur := by
      rw [lastSection, hk]
      rfl
    have hnone : ∀ x ∈ bindings cur [line], x.names sec.toCStr key.toCStr = false := by
      rw [bindings, hk]
      exact fun x hx => absurd hx List.not_mem_nil
    exact edit_copied hnone (hlast.symm ▸ h) rfl fun _ hseen => hseen

theorem edit_all {value : Option Plain} {ls : List Bytes} (h : f.inTarget = inside sec.toCStr cur) :
    Edit sec.toCStr key.toCStr value cur f
      (texts (all (edited sec.toCStr key.toCStr (value.map Plain.toCStr)) f ls).1) ls
      (all (edited sec.toCStr key.toCStr (value.map Plain.toCStr)) f ls).2 := by
  induction ls generalizing cur f with
  | nil => exact edit_nil h
  | cons line ls ih =>
    rw [all, texts, List.map_append]
    have hstep := @edit_edited sec key cur f line value h
    exact hstep.append (ih hstep.target)

theorem bindings_deleted {sec : CStr} {ls : List Bytes} {cur' : Option Bytes}
    (h : f.inTarget = inside sec cur) (hcur : f.inTarget = false → cur' = cur)
    (hout : inside sec cur' = false) :
    bindings cur' (texts (all (deleted sec) f ls).1) =
      (bindings cur ls).filter fun x => !iniIeq x.sec sec.bytes := by
  induction ls generalizing cur cur' f with
  | nil => rfl
  | cons line ls ih =>
    rw [all, texts, List.map_append, bindings_append, bindings, deleted]
    cases hk : kind line with
    | header name =>
      by_cases hm : iniIeq name sec.bytes = true
      · simp only [hm]
        exact ih hm.symm (fun hf => Bool.noConfusion hf) hout
      · have hm' := Bool.eq_false_iff.mpr hm
        have hlast : lastSection cur' [line] = some name := by
          rw [lastSection, hk]
          rfl
        have hbind : bindings cur' [line] = [] := by
          rw [bindings, hk]
          rfl
        simp only [if_neg hm, List.map_cons, List.map_nil, Piece.text, hlast, hbind,
          List.nil_append]
        exact ih rfl (fun _ => rfl) hm'
    | entry k v =>
      by_cases hf : f.inTarget = true
      · obtain ⟨s, rfl, hs⟩ := exists_of_inside (h.symm.trans hf)
        simp only [if_pos hf, List.map_nil, bindings, lastSection, List.nil_append,
          Option.map_some, Option.toList_some, List.singleton_append]
        rw [List.filter_cons_of_neg (by simp [hs])]
        exact ih h hcur hout
      · have hf' := Bool.eq_false_iff.mpr hf
        obtain rfl := hcur hf'
        have hlast : lastSection cur' [line] = cur' := by
          rw [lastSection, hk]
          rfl
        simp only [if_neg hf, List.map_cons, List.map_nil, Piece.text, hlast, bindings, hk,
          List.append_nil, List.filter_append]
        refine congrArg₂ (· ++ ·) (List.filter_eq_self.mpr fun x hx => ?_).symm (ih h hcur hout)
        rcases cur' with _ | s
        · exact absurd hx List.not_mem_nil
        · rw [Option.map_some, Option.toList_some, List.mem_singleton] at hx
          have hs : iniIeq s sec.bytes = false := hout
          simp [hx, hs]
    | other =>
      by_cases hf : f.inTarget = true
      · simp only [if_pos hf, List.map_nil, bindings, lastSection, List.nil_append]
        exact ih h hcur hout
      · have hlast : lastSection cur' [line] = cur' := by
          rw [lastSection, hk]
          rfl
        simp only [if_neg hf, List.map_cons, List.map_nil, Piece.text, hlast, bindings, hk,
          List.nil_append]
        exact ih h hcur hout

end Aret.Ini
