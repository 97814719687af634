/-
The key-value laws of profile files.

* `rewrite_lawful_iff` — deletions do, and a setting does exactly where it fits.
-/
import Aret.IniEdit

namespace Aret.Ini

open Lines (body bodies IsLines)

variable {sec key value : Plain} {step : Flags → Bytes → List Piece × Flags} {f : Flags}
  {ls : List Bytes} {text : Bytes} {n : ℕ} {b : OutBuf UInt8} {ps : List Piece}

def Printed (p : Piece) : Prop :=
  ∃ u, p = .printed (u ++ [newline]) ∧ u ≠ [] ∧ newline ∉ u ∧ 0 ∉ u

def Tidy (step : Flags → Bytes → List Piece × Flags) : Prop :=
  ∀ f line, ∃ qs, (∀ q ∈ qs, Printed q) ∧
    ((step f line).1 = qs ∨ (step f line).1 = qs ++ [.copied line])

theorem printed_setting (key value : Plain) :
    Printed (.printed (setting key.toCStr value.toCStr)) := by
  refine ⟨key.bytes ++ 61 :: value.bytes, ?_, by simp, ?_, ?_⟩
  · rw [setting, List.append_assoc, List.cons_append]
  · rw [← body_setting]
    exact Lines.notMem_body _
  · rw [List.mem_append, List.mem_cons, not_or, not_or]
    exact ⟨key.noNul, by decide, value.noNul⟩

theorem tidy_edited (sec key : Plain) (value : Option Plain) :
    Tidy (edited sec.toCStr key.toCStr (value.map Plain.toCStr)) := by
  intro f line
  have hmap : ∀ p ∈ (value.map Plain.toCStr).toList.map
      (fun v => Piece.printed (setting key.toCStr v)), Printed p := by
    rcases value with _ | v
    · exact fun p hp => absurd hp List.not_mem_nil
    · intro p hp
      rw [Option.map_some, Option.toList_some, List.map_singleton, List.mem_singleton] at hp
      exact hp ▸ printed_setting key v
  have hflush : ∀ p ∈ flushed key.toCStr (value.map Plain.toCStr) f, Printed p := by
    rcases value with _ | v
    · exact fun p hp => absurd hp List.not_mem_nil
    · intro p hp
      rw [Option.map_some, flushed] at hp
      split at hp
      · rw [List.mem_singleton] at hp
        exact hp ▸ printed_setting key v
      · exact absurd hp List.not_mem_nil
  have hnil : ∀ p ∈ ([] : List Piece), Printed p := fun p hp => absurd hp List.not_mem_nil
  rw [edited]
  cases kind line with
  | header name => exact ⟨_, hflush, Or.inr rfl⟩
  | entry k v =>
    by_cases hhit : f.inTarget = true ∧ iniIeq k key.bytes = true
    · exact ⟨_, hmap, Or.inl (by simp only [if_pos hhit])⟩
    · exact ⟨[], hnil, Or.inr (by simp only [if_neg hhit]; rfl)⟩
  | other => exact ⟨[], hnil, Or.inr rfl⟩

theorem tidy_deleted (sec : CStr) : Tidy (deleted sec) := by
  intro f line
  have hnil : ∀ p ∈ ([] : List Piece), Printed p := fun p hp => absurd hp List.not_mem_nil
  refine ⟨[], hnil, ?_⟩
  rw [deleted]
  cases kind line with
  | header name =>
    by_cases hm : iniIeq name sec.bytes = true
    · exact Or.inl (by simp only [if_pos hm])
    · exact Or.inr (by simp only [if_neg hm]; rfl)
  | entry k v =>
    by_cases hf : f.inTarget = true
    · exact Or.inl (by simp only [if_pos hf])
    · exact Or.inr (by simp only [if_neg hf]; rfl)
  | other =>
    by_cases hf : f.inTarget = true
    · exact Or.inl (by simp only [if_pos hf])
    · exact Or.inr (by simp only [if_neg hf]; rfl)

theorem Printed.ended {p : Piece} (h : Printed p) : Lines.Ended newline p.text := by
  obtain ⟨u, rfl, _, hu, _⟩ := h
  exact ⟨u, hu, rfl⟩

theorem texts_append (ps qs : List Piece) : texts (ps ++ qs) = texts ps ++ texts qs :=
  List.map_append

theorem ended_texts (h : ∀ p ∈ ps, Printed p) : ∀ t ∈ texts ps, Lines.Ended newline t := by
  intro t ht
  obtain ⟨p, hp, rfl⟩ := List.mem_map.mp ht
  exact (h p hp).ended

theorem Tidy.isLines (h : Tidy step) (hls : IsLines newline ls) (f : Flags) :
    IsLines newline (texts (all step f ls).1) := by
  induction hls generalizing f with
  | nil => exact .nil
  | @last b hne hb =>
    obtain ⟨qs, hqs, heq⟩ := h f b
    rw [all, all, List.append_nil]
    rcases heq with heq | heq <;> rw [heq]
    · have := IsLines.nil.append (ended_texts hqs)
      rwa [List.append_nil] at this
    · rw [texts_append]
      exact (IsLines.last hne hb).append (ended_texts hqs)
  | @cons b ls hb _ ih =>
    obtain ⟨qs, hqs, heq⟩ := h f (b ++ [newline])
    have hended : ∀ t ∈ texts (step f (b ++ [newline])).1, Lines.Ended newline t := by
      intro t ht
      rcases heq with heq | heq <;> rw [heq] at ht
      · exact ended_texts hqs t ht
      · rw [texts_append] at ht
        rcases List.mem_append.mp ht with ht | ht
        · exact ended_texts hqs t ht
        · rw [List.mem_singleton.mp ht]
          exact ⟨b, hb, rfl⟩
    rw [all, texts_append]
    exact (ih _).append hended

theorem Tidy.mem (h : Tidy step) {p : Piece} (hp : p ∈ (all step f ls).1) :
    Printed p ∨ ∃ line ∈ ls, p = .copied line := by
  induction ls generalizing f with
  | nil => exact absurd hp List.not_mem_nil
  | cons line ls ih =>
    rw [all] at hp
    rcases List.mem_append.mp hp with hp | hp
    · obtain ⟨qs, hqs, heq⟩ := h f line
      rcases heq with heq | heq <;> rw [heq] at hp
      · exact Or.inl (hqs p hp)
      · rcases List.mem_append.mp hp with hp | hp
        · exact Or.inl (hqs p hp)
        · exact Or.inr ⟨line, List.mem_cons_self, List.mem_singleton.mp hp⟩
    · rcases ih hp with hp | ⟨line', hmem, rfl⟩
      · exact Or.inl hp
      · exact Or.inr ⟨line', List.mem_cons_of_mem _ hmem, rfl⟩

theorem Tidy.zero_notMem (h : Tidy step) (hls : 0 ∉ ls.flatten) :
    0 ∉ (texts (all step f ls).1).flatten := by
  intro h0
  obtain ⟨t, ht, h0⟩ := List.mem_flatten.mp h0
  obtain ⟨p, hp, rfl⟩ := List.mem_map.mp ht
  rcases h.mem hp with ⟨u, rfl, _, _, hu⟩ | ⟨line, hline, rfl⟩
  · rcases List.mem_append.mp h0 with h0 | h0
    · exact hu h0
    · exact absurd (List.mem_singleton.mp h0) (by decide)
  · exact hls (List.mem_flatten.mpr ⟨line, hline, h0⟩)

/-! ### The block -/

/-- The block holds a text; where the text fills it, the last newline may be a NUL. -/
inductive Written (text : Bytes) (n : ℕ) (b : OutBuf UInt8) : Prop
  | whole (h : OutBuf.Shows text n b)
  | cut {u : Bytes} (htext : text = u ++ [newline]) (hne : u ≠ [])
      (hlast : u.getLast? ≠ some newline) (hlen : text.length = n) (hpos : b.pos = n)
      (hcells : b.cells = u ++ [0])

def Ends (p : Piece) : Prop :=
  ∀ t, p = .printed t → ∃ u, t = u ++ [newline] ∧ u ≠ [] ∧ u.getLast? ≠ some newline

theorem Printed.ends {p : Piece} (h : Printed p) : Ends p := by
  rintro t rfl
  obtain ⟨u, heq, hne, hu, _⟩ := h
  exact ⟨u, Piece.printed.inj heq, hne, fun hlast => hu (List.mem_of_getLast? hlast)⟩

theorem Tidy.ends (h : Tidy step) : ∀ p ∈ (all step f ls).1, Ends p := by
  intro p hp
  rcases h.mem hp with hp | ⟨line, _, rfl⟩
  · exact hp.ends
  · exact fun t ht => nomatch ht

theorem Written.emit {p : Piece} (h : Written text n b) (hp : Ends p)
    (hfit : text.length + p.text.length ≤ n) :
    ∃ b', Ini.emit n [p] b = some b' ∧ Written (text ++ p.text) n b' := by
  cases h with
  | whole h =>
    cases p with
    | copied t =>
      obtain ⟨b', hb', h'⟩ := h.append hfit
      exact ⟨b', by rw [Ini.emit, show b.append t = some b' from hb']; rfl, .whole h'⟩
    | printed t =>
      have hroom : sizeSub n b.pos = n - text.length := by
        rw [sizeSub, h.pos, if_pos h.le]
      by_cases hlt : text.length + t.length < n
      · obtain ⟨b', hb', h'⟩ := @OutBuf.Shows.print _ _ _ _ _ 0 h _
          (show t.length < n - text.length by omega) hlt
        exact ⟨b', by rw [Ini.emit, hroom, hb']; rfl, .whole h'⟩
      · -- the piece fills the block, and its newline gives way to the NUL
        obtain ⟨u, rfl, hne, hlast⟩ := hp t rfl
        have hlen : text.length + (u ++ [newline]).length = n :=
          le_antisymm hfit (Nat.not_lt.mp hlt)
        have hlen' : (u ++ [newline]).length = u.length + 1 := List.length_append
        have hlen0 : (u ++ [(0 : UInt8)]).length = u.length + 1 := List.length_append
        have htake : (u ++ [newline]).take (n - text.length - 1) = u := by
          rw [show n - text.length - 1 = u.length by omega, List.take_left']
          rfl
        have hstore : text.length + (u ++ [(0 : UInt8)]).length ≤ n := by omega
        obtain ⟨rest, hblit, hcells⟩ := h.stored hstore
        have hrest : rest = [] := by
          rw [List.length_append, List.length_append] at hcells
          exact List.eq_nil_of_length_eq_zero (by omega)
        refine ⟨⟨text ++ (u ++ [0] ++ rest), b.pos + (u ++ [newline]).length⟩, ?_, ?_⟩
        · rw [Ini.emit, hroom, OutBuf.print, if_neg (by omega), htake, hblit]
          rfl
        · refine .cut (u := text ++ u) (List.append_assoc ..).symm (by simp [hne]) ?_ ?_ ?_ ?_
          · rwa [List.getLast?_append_of_ne_nil _ hne]
          · rw [List.length_append]
            exact hlen
          · show b.pos + (u ++ [newline]).length = n
            rw [h.pos, hlen]
          · rw [hrest, List.append_nil, List.append_assoc]
  | cut htext hne hlast hlen hpos hcells =>
    have hnil : p.text = [] := List.eq_nil_of_length_eq_zero (by omega)
    cases p with
    | copied t =>
      obtain rfl : t = [] := hnil
      have hn : b.cells.length = n := by
        rw [hcells, ← hlen, htext, List.length_append, List.length_append]
        rfl
      refine ⟨b, ?_, (List.append_nil text).symm ▸ .cut htext hne hlast hlen hpos hcells⟩
      rw [Ini.emit, OutBuf.append, OutBuf.blit, if_pos (by rw [hpos, hn]; exact le_rfl)]
      simp only [List.length_nil, Nat.add_zero, List.nil_append, List.take_append_drop]
      rfl
    | printed t =>
      obtain ⟨u, rfl, _⟩ := hp t rfl
      exact absurd hnil (by simp [Piece.text])

theorem emit_spec (h : Written text n b) (hps : ∀ p ∈ ps, Ends p)
    (hfit : text.length + (texts ps).flatten.length ≤ n) :
    ∃ b', emit n ps b = some b' ∧ Written (text ++ (texts ps).flatten) n b' := by
  induction ps generalizing text b with
  | nil => exact ⟨b, rfl, by rwa [texts, List.map_nil, List.flatten_nil, List.append_nil]⟩
  | cons p ps ih =>
    have hcons : (texts (p :: ps)).flatten = p.text ++ (texts ps).flatten := rfl
    rw [hcons, List.length_append] at hfit
    obtain ⟨b₁, hb₁, h₁⟩ := h.emit (hps p List.mem_cons_self) (by omega)
    obtain ⟨b₂, hb₂, h₂⟩ := ih h₁ (fun q hq => hps q (List.mem_cons_of_mem _ hq)) (by
      rw [List.length_append]
      omega)
    refine ⟨b₂, ?_, by rwa [hcons, ← List.append_assoc]⟩
    have hsplit : p :: ps = [p] ++ ps := rfl
    rw [hsplit, emit_append, hb₁]
    exact hb₂

theorem emit_pos {b' : OutBuf UInt8} (h : emit n ps b = some b') :
    b'.pos = b.pos + (texts ps).flatten.length ∧ b'.cells.length = b.cells.length := by
  induction ps generalizing b with
  | nil =>
    obtain rfl := Option.some.inj h
    exact ⟨rfl, rfl⟩
  | cons p ps ih =>
    have hcons : (texts (p :: ps)).flatten = p.text ++ (texts ps).flatten := rfl
    have hone : ∃ b₁ : OutBuf UInt8, b₁.pos = b.pos + p.text.length ∧
        b₁.cells.length = b.cells.length ∧ emit n ps b₁ = some b' := by
      cases p with
      | copied t =>
        obtain ⟨b₁, hb₁, h⟩ := Option.bind_eq_some_iff.mp h
        obtain ⟨cells, hcells, rfl⟩ := Option.map_eq_some_iff.mp hb₁
        exact ⟨_, rfl, OutBuf.length_blit hcells, h⟩
      | printed t =>
        obtain ⟨b₁, hb₁, h⟩ := Option.bind_eq_some_iff.mp h
        rw [OutBuf.print] at hb₁
        split at hb₁
        · rw [← Option.some.inj hb₁] at h
          exact ⟨⟨b.cells, b.pos + t.length⟩, rfl, rfl, h⟩
        · obtain ⟨cells, hcells, rfl⟩ := Option.map_eq_some_iff.mp hb₁
          exact ⟨_, rfl, OutBuf.length_blit hcells, h⟩
    obtain ⟨b₁, hpos, hlen, h₁⟩ := hone
    obtain ⟨hpos', hlen'⟩ := ih h₁
    exact ⟨by rw [hpos', hpos, hcons, List.length_append, Nat.add_assoc], hlen'.trans hlen⟩

/-! ### The content -/

def start : Flags := ⟨false, false, false⟩

def appended (sec key value : CStr) (f : Flags) (text : Bytes) : List Piece :=
  (if text = [] ∨ text.getLast? = some newline then [] else [.copied [newline]]) ++
    [.printed (if f.sectionSeen then setting key value else header sec ++ setting key value)]

def rest (sec : CStr) (key value : Option CStr) (f : Flags) (text : Bytes) : List Piece :=
  match key, value with
  | some k, some v => if f.keyDone then [] else appended sec k v f text
  | _, _ => []

def stepOf (sec : CStr) (key value : Option CStr) : Flags → Bytes → List Piece × Flags :=
  match key with
  | some k => edited sec k value
  | none => deleted sec

def front (data : Option CStr) (sec : CStr) (key value : Option CStr) : List Piece × Flags :=
  all (stepOf sec key value) start (Lines.lines newline (data.elim [] (·.bytes)))

def pieces (data : Option CStr) (sec : CStr) (key value : Option CStr) : List Piece :=
  (front data sec key value).1 ++ rest sec key value (front data sec key value).2
    (texts (front data sec key value).1).flatten

def content (data : Option CStr) (sec : CStr) (key value : Option CStr) : Bytes :=
  (texts (pieces data sec key value)).flatten

/-- Arguments that the loop treats as it should: every line becomes its pieces, which are lines. -/
structure Regular (sec : CStr) (key value : Option CStr) : Prop where
  line : ∀ cap f b line, iniLine cap sec key value ⟨f, b⟩ line =
    (emit cap (stepOf sec key value f line).1 b).map (Rewriter.mk (stepOf sec key value f line).2)
  tidy : Tidy (stepOf sec key value)
  ends : ∀ f text, ∀ p ∈ rest sec key value f text, Ends p

theorem appended_ends (sec : CStr) (key value : Plain) (f : Flags) (text : Bytes) :
    ∀ p ∈ appended sec key.toCStr value.toCStr f text, Ends p := by
  rintro p hp t rfl
  rcases List.mem_append.mp hp with hp | hp
  · split at hp
    · exact absurd hp List.not_mem_nil
    · exact nomatch List.mem_singleton.mp hp
  · obtain ⟨u, hu, hne, hlast⟩ := (printed_setting key value).ends _ rfl
    have ht := Piece.printed.inj (List.mem_singleton.mp hp)
    split at ht
    · exact ⟨u, ht.trans hu, hne, hlast⟩
    · refine ⟨header sec ++ u, by rw [ht, hu, List.append_assoc], by simp [hne], ?_⟩
      rwa [List.getLast?_append_of_ne_nil _ hne]

theorem regular_key (sec key : Plain) (value : Option Plain) :
    Regular sec.toCStr (some key.toCStr) (value.map Plain.toCStr) where
  line _ _ _ _ := iniLine_eq
  tidy := tidy_edited sec key value
  ends f text p hp := by
    rcases value with _ | v
    · exact absurd hp List.not_mem_nil
    · simp only [rest, Option.map_some] at hp
      split at hp
      · exact absurd hp List.not_mem_nil
      · exact appended_ends _ _ _ _ _ p hp

theorem regular_section (sec : CStr) : Regular sec none none where
  line _ _ _ _ := iniLine_none
  tidy := tidy_deleted sec
  ends _ _ _ hp := absurd hp List.not_mem_nil

theorem iniFinish_eq {sec : CStr} {key value : Option CStr}
    (h : rest sec key value f text ≠ [] → OutBuf.Shows text n b) :
    iniFinish n sec key value ⟨f, b⟩ =
      (emit n (rest sec key value f text) b).map (Rewriter.mk f) := by
  rcases key with _ | k
  · rfl
  rcases value with _ | v
  · rfl
  simp only [iniFinish, rest] at h ⊢
  by_cases hd : f.keyDone = true
  · simp only [if_pos hd]
    rfl
  simp only [if_neg hd] at h ⊢
  have hs := h (by simp [appended])
  have hprint : ∀ b' : OutBuf UInt8,
      (if f.sectionSeen = true then Rewriter.print n (setting k v) ⟨f, b'⟩
        else Rewriter.print n (header sec ++ setting k v) ⟨f, b'⟩) =
      (emit n [.printed (if f.sectionSeen then setting k v else header sec ++ setting k v)]
        b').map (Rewriter.mk f) := by
    intro b'
    by_cases hseen : f.sectionSeen = true <;> simp [hseen, Rewriter.print, emit]
  rw [appended, emit_append]
  -- the last character of the text decides whether a newline comes first
  obtain ⟨tail, htail⟩ := hs.cells
  rcases List.eq_nil_or_concat text with rfl | ⟨front, c, rfl⟩
  · have hpos : b.pos = 0 := hs.pos
    simp only [if_pos hpos, Option.bind_some, emit]
    exact hprint b
  · rw [List.concat_eq_append] at htail hs
    have hlen : (front ++ [c]).length = front.length + 1 := List.length_append
    have hpos : b.pos = front.length + 1 := hs.pos.trans hlen
    have hread : b.cells[b.pos - 1]? = some c := by
      rw [htail, hpos, Nat.add_sub_cancel, List.append_assoc,
        List.getElem?_append_right (le_refl _), Nat.sub_self]
      rfl
    have hne : ¬ b.pos = 0 := by omega
    simp only [if_neg hne, hread, Option.bind_some]
    have hlast : (front.concat c).getLast? = some c := by
      rw [List.concat_eq_append, List.getLast?_concat]
    by_cases hc : c = newline
    · have hor : front.concat c = [] ∨ (front.concat c).getLast? = some newline :=
        Or.inr (hlast.trans (congrArg some hc))
      simp only [if_pos hc, Option.bind_some, if_pos hor, emit]
      exact hprint b
    · have hor : ¬ (front.concat c = [] ∨ (front.concat c).getLast? = some newline) := by
        rw [hlast]
        rintro (hnil | heq)
        · simp at hnil
        · exact hc (Option.some.inj heq)
      simp only [if_neg hc, if_neg hor, emit, Rewriter.copy]
      rcases b.append [newline] with _ | b'
      · rfl
      · exact hprint b'

section

variable {malloc : (n : ℕ) → Vector UInt8 n} {data : Option CStr} {sec : CStr}
  {key value : Option CStr}

def Roomy (data : Option CStr) (sec : CStr) (key value : Option CStr) : Prop :=
  rest sec key value (front data sec key value).2
      (texts (front data sec key value).1).flatten ≠ [] →
    (texts (front data sec key value).1).flatten.length < capacity data sec key value

theorem iniRewrite_eq (h : Regular sec key value) (hroom : Roomy data sec key value) :
    iniRewrite malloc data sec key value =
      (emit (capacity data sec key value) (pieces data sec key value)
        ⟨(malloc (capacity data sec key value)).toList, 0⟩).map fun b => (b.cells, b.pos) := by
  simp only [iniRewrite, foldlM_iniLine (h.line _)]
  rw [pieces, emit_append, ← start, ← front]
  unfold Roomy at hroom
  generalize hcap : capacity data sec key value = cap at hroom
  rcases hb : emit cap (front data sec key value).1 ⟨(malloc cap).toList, 0⟩ with _ | b
  · rfl
  have hshows : rest sec key value (front data sec key value).2
      (texts (front data sec key value).1).flatten ≠ [] →
      OutBuf.Shows (texts (front data sec key value).1).flatten cap b := by
    intro hne
    have hfit := hroom hne
    have hstart := OutBuf.shows_start (malloc cap).toList
    rw [Vector.length_toList] at hstart
    obtain ⟨b', hb', hw⟩ := emit_spec (.whole hstart) h.tidy.ends (by
      rw [List.length_nil, Nat.zero_add]
      exact hfit.le)
    obtain rfl : b' = b := Option.some.inj (hb'.symm.trans hb)
    cases hw with
    | whole hs => exact hs
    | cut _ _ _ hlen => exact absurd hlen hfit.ne
  simp only [Option.map_some, Option.bind_some, iniFinish_eq hshows, Option.map_map]
  rfl

theorem write_over (h : Regular sec key value) {file : Option Bytes}
    (hroom : Roomy (iniSlurp file) sec key value)
    (hover : capacity (iniSlurp file) sec key value <
      (content (iniSlurp file) sec key value).length) :
    writePrivateProfileStringA malloc file sec key value = none := by
  rw [writePrivateProfileStringA, iniRewrite_eq h hroom]
  rcases hb : emit (capacity (iniSlurp file) sec key value) (pieces (iniSlurp file) sec key value)
    ⟨(malloc (capacity (iniSlurp file) sec key value)).toList, 0⟩ with _ | b
  · rfl
  · obtain ⟨hpos, hlen⟩ := emit_pos hb
    rw [Vector.length_toList] at hlen
    rw [Nat.zero_add, ← content] at hpos
    exact if_neg (by rw [hlen, hpos]; exact Nat.not_le.mpr hover)

theorem write_fits (h : Regular sec key value) {file : Option Bytes}
    (hroom : Roomy (iniSlurp file) sec key value)
    (hfit : (content (iniSlurp file) sec key value).length ≤ capacity (iniSlurp file) sec key value)
    (h0 : 0 ∉ content (iniSlurp file) sec key value) :
    ∃ file', writePrivateProfileStringA malloc file sec key value = some file' ∧
      bodies newline (cstr file') = bodies newline (content (iniSlurp file) sec key value) := by
  have hstart := OutBuf.shows_start (malloc (capacity (iniSlurp file) sec key value)).toList
  rw [Vector.length_toList] at hstart
  have hends : ∀ p ∈ pieces (iniSlurp file) sec key value, Ends p := by
    intro p hp
    rcases List.mem_append.mp hp with hp | hp
    · exact h.tidy.ends p hp
    · exact h.ends _ _ p hp
  obtain ⟨b, hb, hw⟩ := emit_spec (.whole hstart) hends (by
    rw [List.length_nil, Nat.zero_add]
    exact hfit)
  rw [List.nil_append, ← content] at hw
  have hlen := (emit_pos hb).2
  rw [Vector.length_toList] at hlen
  have htext : ∀ text : Bytes, 0 ∉ text → cstr text = text := fun text h0 =>
    List.takeWhile_eq_self_iff.mpr fun c hc => decide_eq_true fun heq => h0 (heq ▸ hc)
  have hwrite : ∀ file', b.pos ≤ b.cells.length → b.cells.take b.pos = file' →
      writePrivateProfileStringA malloc file sec key value = some file' := by
    intro file' hle htake
    rw [writePrivateProfileStringA, iniRewrite_eq h hroom, hb]
    exact (if_pos hle).trans (congrArg some htake)
  cases hw with
  | whole hs =>
    obtain ⟨tail, htail⟩ := hs.cells
    refine ⟨_, hwrite _ ?_ rfl, ?_⟩
    · rw [hs.pos, hlen]
      exact hfit
    · rw [htail, hs.pos, List.take_left', htext _ h0]
      rfl
  | @cut u hcontent hne hlast hfull hpos hcells =>
    have htake : b.cells.take b.pos = u ++ [0] := by
      rw [hcells]
      refine List.take_of_length_le ?_
      rw [← hcells, hlen, hpos]
    refine ⟨_, hwrite _ (by rw [hpos, hlen]) htake, ?_⟩
    rw [hcontent, List.mem_append, not_or] at h0
    rw [hcontent, Lines.bodies_concat hne hlast, cstr_append h0.1]

end

/-! ### The length of the content -/

def keyLines (sec key : CStr) : Bool → List Bytes → List Bytes
  | _, [] => []
  | inTarget, line :: rest =>
    match kind line with
    | .header name => keyLines sec key (iniIeq name sec.bytes) rest
    | .entry k _ =>
      if inTarget ∧ iniIeq k key.bytes then line :: keyLines sec key inTarget rest
      else keyLines sec key inTarget rest
    | .other => keyLines sec key inTarget rest

def leftUnset (sec key : CStr) : Bool → List Bytes → Bool
  | _, [] => false
  | inTarget, line :: rest =>
    match kind line with
    | .header name => inTarget || leftUnset sec key (iniIeq name sec.bytes) rest
    | .entry k _ =>
      if inTarget ∧ iniIeq k key.bytes then false else leftUnset sec key inTarget rest
    | .other => leftUnset sec key inTarget rest

def settings (sec key : CStr) (f : Flags) (ls : List Bytes) : ℕ :=
  (keyLines sec key f.inTarget ls).length +
    if f.keyDone = false ∧ leftUnset sec key f.inTarget ls = true then 1 else 0

section

variable {sec key : CStr} {f : Flags} {ls : List Bytes}

theorem length_texts_append (ps qs : List Piece) :
    (texts (ps ++ qs)).flatten.length =
      (texts ps).flatten.length + (texts qs).flatten.length := by
  rw [texts_append, List.flatten_append, List.length_append]

theorem length_texts_copied (line : Bytes) :
    (texts [.copied line]).flatten.length = line.length := by
  rw [texts, List.map_singleton, List.flatten_singleton]
  rfl

theorem length_texts_printed (text : Bytes) :
    (texts [.printed text]).flatten.length = text.length := by
  rw [texts, List.map_singleton, List.flatten_singleton]
  rfl

theorem length_set {v : CStr} :
    (texts (all (edited sec key (some v)) f ls).1).flatten.length +
        ((keyLines sec key f.inTarget ls).map List.length).sum =
      ls.flatten.length + settings sec key f ls * (setting key v).length := by
  induction ls generalizing f with
  | nil => simp [all, texts, settings, keyLines, leftUnset]
  | cons line ls ih =>
    have hih := @ih (edited sec key (some v) f line).2
    rw [all, length_texts_append, List.flatten_cons, List.length_append]
    unfold settings at hih ⊢
    rw [keyLines, leftUnset]
    rw [edited] at hih ⊢
    cases hk : kind line with
    | header name =>
      simp only [hk] at hih ⊢
      rw [length_texts_append, length_texts_copied]
      by_cases hf : f.inTarget = true ∧ f.keyDone = false
      · simp only [flushed, if_pos hf] at hih ⊢
        simp only [hf.1, hf.2, List.isEmpty_cons, Bool.not_false, Bool.or_true, Bool.true_eq_false,
          false_and, if_false, Nat.add_zero, Bool.true_or, and_self, if_true] at hih ⊢
        rw [length_texts_printed, Nat.add_mul, Nat.one_mul]
        omega
      · have hnil : flushed key (some v) f = [] := if_neg hf
        have hsame : (f.keyDone = false ∧ (f.inTarget || leftUnset sec key
            (iniIeq name sec.bytes) ls) = true) ↔
            (f.keyDone = false ∧ leftUnset sec key (iniIeq name sec.bytes) ls = true) := by
          refine and_congr_right fun hd => ?_
          have hin : f.inTarget = false := Bool.eq_false_iff.mpr fun hin => hf ⟨hin, hd⟩
          rw [hin, Bool.false_or]
        simp only [hnil, List.isEmpty_nil, Bool.not_true, Bool.or_false] at hih ⊢
        rw [if_congr hsame rfl rfl]
        have hzero : (texts []).flatten.length = 0 := rfl
        omega
    | entry k w =>
      simp only [hk] at hih ⊢
      by_cases hhit : f.inTarget = true ∧ iniIeq k key.bytes = true
      · simp only [if_pos hhit, Option.toList_some, List.map_nil, Bool.true_eq_false, false_and,
          if_false, Nat.add_zero, Bool.false_eq_true, and_false, List.map_cons, List.sum_cons,
          List.length_cons] at hih ⊢
        rw [length_texts_printed, Nat.succ_mul]
        omega
      · simp only [if_neg hhit] at hih ⊢
        rw [length_texts_copied]
        omega
    | other =>
      simp only [hk] at hih ⊢
      rw [length_texts_copied]
      omega

theorem unset_of_keyDone {v : CStr} (h : (all (edited sec key (some v)) f ls).2.keyDone = false) :
    f.keyDone = false ∧ settings sec key f ls = 0 ∧
      ((keyLines sec key f.inTarget ls).map List.length).sum = 0 := by
  induction ls generalizing f with
  | nil => exact ⟨h, by simp [settings, keyLines, leftUnset], rfl⟩
  | cons line ls ih =>
    have hih := ih h
    unfold settings at hih ⊢
    rw [keyLines, leftUnset]
    rw [edited] at hih
    cases hk : kind line with
    | header name =>
      simp only [hk, Bool.or_eq_false_iff] at hih ⊢
      obtain ⟨⟨hdone, hflush⟩, hset, hsum⟩ := hih
      have hin : f.inTarget = false := by
        by_contra hno
        rw [flushed, if_pos ⟨Bool.eq_true_of_not_eq_false hno, hdone⟩] at hflush
        cases hflush
      simp only [hdone, hin, hflush, Bool.false_or, true_and] at hset ⊢
      exact ⟨hset, hsum⟩
    | entry k w =>
      simp only [hk] at hih ⊢
      by_cases hhit : f.inTarget = true ∧ iniIeq k key.bytes = true
      · simp only [if_pos hhit] at hih
        cases hih.1
      · simp only [if_neg hhit] at hih ⊢
        exact hih
    | other =>
      simp only [hk] at hih ⊢
      exact hih

theorem length_all_le {step : Flags → Bytes → List Piece × Flags}
    (h : ∀ f line, (texts (step f line).1).flatten.length ≤ line.length) :
    (texts (all step f ls).1).flatten.length ≤ ls.flatten.length := by
  induction ls generalizing f with
  | nil => exact le_rfl
  | cons line ls ih =>
    rw [all, length_texts_append, List.flatten_cons, List.length_append]
    exact Nat.add_le_add (h f line) ih

theorem length_edited_none (line : Bytes) :
    (texts (edited sec key none f line).1).flatten.length ≤ line.length := by
  have hline := (length_texts_copied line).le
  rw [edited]
  cases kind line with
  | header name => exact hline
  | entry k v =>
    by_cases hhit : f.inTarget = true ∧ iniIeq k key.bytes = true
    · simp only [if_pos hhit]
      exact Nat.zero_le _
    · simp only [if_neg hhit]
      exact hline
  | other => exact hline

theorem length_deleted (line : Bytes) :
    (texts (deleted sec f line).1).flatten.length ≤ line.length := by
  have hline := (length_texts_copied line).le
  have hif : ∀ m : Bool, (texts (if m = true then [] else [.copied line])).flatten.length ≤
      line.length := by
    intro m
    cases m with
    | false => exact hline
    | true => exact Nat.zero_le _
  rw [deleted]
  cases kind line with
  | header name => exact hif _
  | entry k v => exact hif _
  | other => exact hif _

end

/-! ### Files -/

section

variable {malloc : (n : ℕ) → Vector UInt8 n} {file : Option Bytes} {data : Option CStr}

def SameName (a b : CStr) : Prop := a.bytes.map HostPath.lower = b.bytes.map HostPath.lower

instance (a b : CStr) : Decidable (SameName a b) := inferInstanceAs (Decidable (_ = _))

/-- A setting fits: every line that sets the key in the section, and the end of the first such
section where no line of it does, becomes a line of its own, in place of the old ones. -/
def Fits (file : Option Bytes) (sec key value : CStr) : Prop :=
  let ls := Lines.lines newline ((iniSlurp file).elim [] (·.bytes))
  settings sec key start ls * (key.bytes.length + value.bytes.length + 2) ≤
    ((keyLines sec key false ls).map List.length).sum +
      (sec.bytes.length + key.bytes.length + value.bytes.length + 64)

def Sets (malloc : (n : ℕ) → Vector UInt8 n) (file : Option Bytes) (sec key value : CStr) : Prop :=
  ∃ file', writePrivateProfileStringA malloc file sec (some key) (some value) = some file' ∧
    ∀ cap sec' key', lookup cap (some file') sec' key' =
      if SameName sec' sec ∧ SameName key' key then some (value.bytes.take (cap - 1))
      else lookup cap file sec' key'

def Deletes (malloc : (n : ℕ) → Vector UInt8 n) (file : Option Bytes) (sec key : CStr) : Prop :=
  ∃ file', writePrivateProfileStringA malloc file sec (some key) none = some file' ∧
    ∀ cap sec' key', lookup cap (some file') sec' key' =
      if SameName sec' sec ∧ SameName key' key then none else lookup cap file sec' key'

def DeletesSection (malloc : (n : ℕ) → Vector UInt8 n) (file : Option Bytes) (sec : CStr) : Prop :=
  ∃ file', writePrivateProfileStringA malloc file sec none none = some file' ∧
    ∀ cap sec' key', lookup cap (some file') sec' key' =
      if SameName sec' sec then none else lookup cap file sec' key'

def slurped (file : Option Bytes) : Bytes := (iniSlurp file).elim [] (·.bytes)

theorem lookup_eq (cap : ℕ) (file : Option Bytes) (sec key : CStr) :
    lookup cap file sec key = ((textBindings (slurped file)).find? (Binding.names sec key)).map
      fun x => iniCleanValue x.value cap := by
  rcases file with _ | file
  · rfl
  · exact iniGet_eq _ sec key cap

theorem zero_notMem_slurped : 0 ∉ slurped file := by
  rcases file with _ | file
  · exact List.not_mem_nil
  · exact (Option.get (iniSlurp (some file)) rfl).noNul

theorem length_header (sec : CStr) : (header sec).length = sec.bytes.length + 3 := by
  rw [header, List.length_cons, List.length_append]
  rfl

theorem length_setting (key value : CStr) :
    (setting key value).length = key.bytes.length + value.bytes.length + 2 := by
  rw [setting, List.length_append, List.length_cons, List.length_append]
  show _ + (_ + 1 + 1) = _
  omega

theorem names_congr {sec sec' key key' : CStr} (hs : SameName sec' sec) (hk : SameName key' key) :
    Binding.names sec' key' = Binding.names sec key := by
  have heq : ∀ {a b : CStr}, SameName a b → ∀ c : Bytes, iniIeq c a.bytes = iniIeq c b.bytes := by
    intro a b hab c
    rw [Bool.eq_iff_iff, iniIeq_iff, iniIeq_iff, hab]
  funext x
  rw [Binding.names, Binding.names, heq hs, heq hk]

theorem sameName_of_iniIeq {c : Bytes} {a b : CStr} (h : iniIeq c a.bytes = true)
    (h' : iniIeq c b.bytes = true) : SameName a b :=
  (iniIeq_iff.mp h).symm.trans (iniIeq_iff.mp h')

theorem names_other {sec sec' key key' : CStr} (h : ¬ (SameName sec' sec ∧ SameName key' key)) :
    ∀ x, Binding.names sec' key' x = true → Binding.names sec key x = false := by
  intro x hx
  rw [Bool.eq_false_iff]
  intro hx'
  rw [Binding.names, Bool.and_eq_true] at hx hx'
  exact h ⟨sameName_of_iniIeq hx.1 hx'.1, sameName_of_iniIeq hx.2 hx'.2⟩

/-! ### Setting a key -/

variable {sec key value : Plain}

/-- The bindings of the key have the value, there is one, and the others are as before. -/
structure SetTo (sec key value : CStr) (new old : List Binding) : Prop where
  same : SameBut (Binding.names sec key) new old
  set : ∀ x ∈ new, x.names sec key = true → x.value = value.bytes
  has : ∃ x ∈ new, x.names sec key = true

theorem isLines_setting : IsLines newline [setting key.toCStr value.toCStr] := by
  obtain ⟨b, hb, heq⟩ := (printed_setting key value).ended
  rw [show setting key.toCStr value.toCStr = b ++ [newline] from heq]
  exact .cons hb .nil

theorem isLines_header : IsLines newline [header sec.toCStr, setting key.toCStr value.toCStr] := by
  have hmem : newline ∉ 91 :: (sec.bytes ++ [93]) := by
    rw [List.mem_cons, List.mem_append, List.mem_singleton, not_or, not_or]
    exact ⟨by decide, sec.notMem (by decide), by decide⟩
  have heq : header sec.toCStr = (91 :: (sec.bytes ++ [93])) ++ [newline] := by
    rw [header, List.cons_append, List.append_assoc]
    rfl
  rw [heq]
  exact .cons hmem isLines_setting

theorem bodies_appended {text : Bytes} {f : Flags} :
    bodies newline (text ++ (texts (appended sec.toCStr key.toCStr value.toCStr f text)).flatten) =
      bodies newline text ++
        (if f.sectionSeen then [setting key.toCStr value.toCStr]
          else [header sec.toCStr, setting key.toCStr value.toCStr]).map (body newline) := by
  have hbodies : ∀ text' tail : Bytes, (text' = [] ∨ text'.getLast? = some newline) →
      bodies newline (text' ++ tail) = bodies newline text' ++ bodies newline tail := by
    intro text' tail h
    rw [bodies, Lines.lines_append h, List.map_append]
    rfl
  have htail : bodies newline (if f.sectionSeen then setting key.toCStr value.toCStr
      else header sec.toCStr ++ setting key.toCStr value.toCStr) =
      (if f.sectionSeen then [setting key.toCStr value.toCStr]
          else [header sec.toCStr, setting key.toCStr value.toCStr]).map (body newline) := by
    by_cases hseen : f.sectionSeen = true
    · simp only [if_pos hseen]
      rw [← Lines.bodies_flatten isLines_setting, List.flatten_singleton]
    · simp only [if_neg hseen]
      rw [← Lines.bodies_flatten isLines_header]
      simp
  rw [appended]
  by_cases hc : text = [] ∨ text.getLast? = some newline
  · rw [if_pos hc, List.nil_append, texts, List.map_singleton, List.flatten_singleton, ← htail]
    exact hbodies _ _ hc
  · rw [not_or] at hc
    rw [if_neg (not_or.mpr hc), texts, ← htail, ← Lines.bodies_concat hc.1 hc.2]
    rw [← hbodies _ _ (Or.inr List.getLast?_concat)]
    simp [Piece.text]

theorem setTo_content (data : Option CStr) :
    SetTo sec.toCStr key.toCStr value.toCStr
      (textBindings (content data sec.toCStr (some key.toCStr) (some value.toCStr)))
      (textBindings (data.elim [] (·.bytes))) := by
  have hedit : Edit sec.toCStr key.toCStr (some value) none start
      (texts (front data sec.toCStr (some key.toCStr) (some value.toCStr)).1)
      (Lines.lines newline (data.elim [] (·.bytes)))
      (front data sec.toCStr (some key.toCStr) (some value.toCStr)).2 := edit_all rfl
  have hls : IsLines newline
      (texts (front data sec.toCStr (some key.toCStr) (some value.toCStr)).1) :=
    (tidy_edited sec key (some value)).isLines (Lines.isLines_lines _) start
  rw [textBindings_eq (data.elim [] _), textBindings, content, pieces, texts_append,
    List.flatten_append]
  generalize front data sec.toCStr (some key.toCStr) (some value.toCStr) = done at hedit hls
  generalize Lines.lines newline (data.elim [] (·.bytes)) = ls at hedit
  have hset : ∀ x ∈ bindings none (texts done.1), x.names sec.toCStr key.toCStr = true →
      x.value = value.bytes := by
    intro x hx hname
    obtain ⟨v, hv, heq⟩ := hedit.set x hx hname
    rw [heq, Option.some.inj hv]
  by_cases hdone : done.2.keyDone = true
  · simp only [rest, if_pos hdone]
    rw [show texts [] = [] from rfl, List.flatten_nil, List.append_nil, Lines.bodies_flatten hls,
      bindings_map_body]
    refine ⟨hedit.same, hset, ?_⟩
    exact (hedit.done rfl hdone).resolve_left Bool.false_ne_true
  · simp only [rest, if_neg hdone]
    rw [bodies_appended, Lines.bodies_flatten hls, ← List.map_append, bindings_map_body,
      bindings_append, hedit.last]
    -- what is appended binds the key once, in a section of that name
    obtain ⟨s, hs, hone⟩ : ∃ s, iniIeq s sec.bytes = true ∧ bindings (lastSection none ls)
        (if done.2.sectionSeen then [setting key.toCStr value.toCStr]
          else [header sec.toCStr, setting key.toCStr value.toCStr]) =
        [⟨s, key.bytes, value.bytes⟩] := by
      by_cases hseen : done.2.sectionSeen = true
      · have hin := (hedit.seen rfl (fun h => Bool.noConfusion h) hseen).resolve_left hdone
        obtain ⟨s, hcur, hs⟩ := exists_of_inside (hedit.target.symm.trans hin)
        refine ⟨s, hs, ?_⟩
        rw [if_pos hseen, hcur]
        exact bindings_setting s
      · refine ⟨sec.bytes, iniIeq_iff.mpr rfl, ?_⟩
        rw [if_neg hseen, bindings, kind_header]
        exact bindings_setting _
    have hname := @names_self sec key s hs value.bytes
    rw [hone]
    refine ⟨?_, ?_, _, List.mem_append_right _ (List.mem_singleton_self _), hname⟩
    · have hnone : SameBut (Binding.names sec.toCStr key.toCStr)
          [⟨s, key.bytes, value.bytes⟩] [] := by
        rw [SameBut, List.filter_cons_of_neg (by simp [hname]), List.filter_nil]
      have happ := hedit.same.append hnone
      rwa [List.append_nil] at happ
    · intro x hx hx'
      rcases List.mem_append.mp hx with hx | hx
      · exact hset x hx hx'
      · rw [List.mem_singleton.mp hx]

theorem length_front_set (data : Option CStr) :
    (texts (front data sec.toCStr (some key.toCStr) (some value.toCStr)).1).flatten.length +
        ((keyLines sec.toCStr key.toCStr false
          (Lines.lines newline (data.elim [] (·.bytes)))).map List.length).sum =
      (data.elim [] (·.bytes)).length +
        settings sec.toCStr key.toCStr start (Lines.lines newline (data.elim [] (·.bytes))) *
          (key.bytes.length + value.bytes.length + 2) := by
  have h := @length_set sec.toCStr key.toCStr start (Lines.lines newline (data.elim [] (·.bytes)))
    value.toCStr
  rwa [Lines.flatten_lines, length_setting] at h

theorem length_slurped (data : Option CStr) :
    data.elim 0 (·.bytes.length) = (data.elim [] (·.bytes)).length := by
  cases data <;> rfl

theorem roomy_set (data : Option CStr) :
    Roomy data sec.toCStr (some key.toCStr) (some value.toCStr) := by
  intro hrest
  have hdone : (front data sec.toCStr (some key.toCStr) (some value.toCStr)).2.keyDone = false := by
    by_contra hno
    exact hrest (if_pos (Bool.eq_true_of_not_eq_false hno))
  obtain ⟨_, hset, hsum⟩ := unset_of_keyDone hdone
  have hlen := @length_front_set sec key value data
  have hsum' : ((keyLines sec.toCStr key.toCStr false
      (Lines.lines newline (data.elim [] (·.bytes)))).map List.length).sum = 0 := hsum
  rw [hset, hsum', Nat.zero_mul] at hlen
  rw [capacity, length_slurped]
  omega

theorem length_appended_le {f : Flags} {text : Bytes} :
    (texts (appended sec.toCStr key.toCStr value.toCStr f text)).flatten.length ≤
      sec.bytes.length + key.bytes.length + value.bytes.length + 6 := by
  have hs := length_setting key.toCStr value.toCStr
  have hh := length_header sec.toCStr
  rw [appended, length_texts_append, length_texts_printed]
  have hend : (texts (if text = [] ∨ text.getLast? = some newline then []
      else [.copied [newline]])).flatten.length ≤ 1 := by
    split
    · exact Nat.zero_le _
    · exact le_rfl
  have hline : (if f.sectionSeen then setting key.toCStr value.toCStr
      else header sec.toCStr ++ setting key.toCStr value.toCStr).length ≤
        sec.bytes.length + key.bytes.length + value.bytes.length + 5 := by
    split
    · omega
    · rw [List.length_append]
      omega
  omega

theorem length_content_le_iff :
    (content (iniSlurp file) sec.toCStr (some key.toCStr) (some value.toCStr)).length ≤
        capacity (iniSlurp file) sec.toCStr (some key.toCStr) (some value.toCStr) ↔
      Fits file sec.toCStr key.toCStr value.toCStr := by
  have hlen := @length_front_set sec key value (iniSlurp file)
  rw [content, pieces, length_texts_append, capacity, length_slurped, Fits]
  simp only [Option.elim_some]
  by_cases hdone : (front (iniSlurp file) sec.toCStr (some key.toCStr)
      (some value.toCStr)).2.keyDone = true
  · simp only [rest, if_pos hdone]
    have hzero : (texts []).flatten.length = 0 := rfl
    constructor <;> intro h <;> omega
  · obtain ⟨_, hset, hsum⟩ := unset_of_keyDone (Bool.eq_false_iff.mpr hdone)
    have hsum' : ((keyLines sec.toCStr key.toCStr false
        (Lines.lines newline ((iniSlurp file).elim [] (·.bytes)))).map List.length).sum = 0 := hsum
    simp only [rest, if_neg hdone]
    have htail := @length_appended_le sec key value
      (front (iniSlurp file) sec.toCStr (some key.toCStr) (some value.toCStr)).2
      (texts (front (iniSlurp file) sec.toCStr (some key.toCStr) (some value.toCStr)).1).flatten
    rw [hset, hsum', Nat.zero_mul] at hlen ⊢
    constructor
    · exact fun _ => Nat.zero_le _
    · intro _
      omega

theorem zero_notMem_front {key? value? : Option CStr} (h : Tidy (stepOf sec.toCStr key? value?)) :
    0 ∉ (texts (front (iniSlurp file) sec.toCStr key? value?).1).flatten := by
  refine h.zero_notMem ?_
  rw [Lines.flatten_lines]
  exact zero_notMem_slurped

theorem zero_notMem_content :
    0 ∉ content (iniSlurp file) sec.toCStr (some key.toCStr) (some value.toCStr) := by
  have hsetting : 0 ∉ setting key.toCStr value.toCStr := by
    rw [setting, List.mem_append, List.mem_cons, List.mem_append, List.mem_singleton, not_or,
      not_or, not_or]
    exact ⟨key.noNul, by decide, value.noNul, by decide⟩
  have hheader : 0 ∉ header sec.toCStr := by
    rw [header, List.mem_cons, List.mem_append, not_or, not_or]
    exact ⟨by decide, sec.noNul, by decide⟩
  rw [content, pieces, texts_append, List.flatten_append, List.mem_append, not_or]
  refine ⟨zero_notMem_front (tidy_edited sec key (some value)), ?_⟩
  simp only [rest]
  split
  · exact List.not_mem_nil
  · rw [appended, texts_append, List.flatten_append, List.mem_append, not_or]
    constructor
    · split
      · exact List.not_mem_nil
      · decide
    · rw [texts, List.map_singleton, List.flatten_singleton, Piece.text]
      split
      · exact hsetting
      · rw [List.mem_append, not_or]
        exact ⟨hheader, hsetting⟩

theorem lookup_written {cap : ℕ} {file' text : Bytes} (sec key : CStr)
    (h : bodies newline (cstr file') = bodies newline text) :
    lookup cap (some file') sec key =
      ((textBindings text).find? (Binding.names sec key)).map fun x =>
        iniCleanValue x.value cap := by
  rw [lookup_eq, textBindings, textBindings, ← h]
  rfl

theorem sets_iff :
    Sets malloc file sec.toCStr key.toCStr value.toCStr ↔
      Fits file sec.toCStr key.toCStr value.toCStr := by
  have hreg : Regular sec.toCStr (some key.toCStr) (some value.toCStr) :=
    regular_key sec key (some value)
  constructor
  · rintro ⟨file', hwrite, _⟩
    by_contra hno
    rw [← length_content_le_iff, Nat.not_le] at hno
    rw [write_over hreg (roomy_set _) hno] at hwrite
    exact nomatch hwrite
  · intro hfits
    obtain ⟨file', hwrite, hbodies⟩ := @write_fits malloc _ _ _ hreg file (roomy_set _)
      (length_content_le_iff.mpr hfits) zero_notMem_content
    have hset := @setTo_content sec key value (iniSlurp file)
    refine ⟨file', hwrite, fun cap sec' key' => ?_⟩
    rw [lookup_written sec' key' hbodies]
    split
    · rename_i hsame
      rw [names_congr hsame.1 hsame.2]
      obtain ⟨x, hx⟩ := Option.isSome_iff_exists.mp (List.find?_isSome.mpr hset.has)
      rw [hx, Option.map_some, hset.set x (List.mem_of_find?_eq_some hx) (List.find?_some hx),
        value.iniCleanValue_bytes]
    · rename_i hother
      rw [hset.same.find? (names_other hother), lookup_eq]
      rfl

/-! ### Deleting -/

theorem write_deletion {key? : Option CStr} (hreg : Regular sec.toCStr key? none)
    (hstep : ∀ f line, (texts (stepOf sec.toCStr key? none f line).1).flatten.length ≤
      line.length) :
    ∃ file', writePrivateProfileStringA malloc file sec.toCStr key? none = some file' ∧
      bodies newline (cstr file') =
        (texts (front (iniSlurp file) sec.toCStr key? none).1).map (body newline) := by
  have hrest : ∀ f text, rest sec.toCStr key? none f text = [] := by
    intro f text
    cases key? <;> rfl
  have hcontent : content (iniSlurp file) sec.toCStr key? none =
      (texts (front (iniSlurp file) sec.toCStr key? none).1).flatten := by
    rw [content, pieces, hrest, List.append_nil]
  have hlen := @length_all_le start (Lines.lines newline ((iniSlurp file).elim [] (·.bytes))) _
    hstep
  rw [Lines.flatten_lines] at hlen
  have hfit : (content (iniSlurp file) sec.toCStr key? none).length ≤
      capacity (iniSlurp file) sec.toCStr key? none := by
    rw [hcontent, capacity, length_slurped]
    exact hlen.trans (by omega)
  obtain ⟨file', hwrite, hbodies⟩ := @write_fits malloc _ _ _ hreg file
    (fun h => absurd (hrest _ _) h) hfit (by
      rw [hcontent]
      exact zero_notMem_front hreg.tidy)
  refine ⟨file', hwrite, ?_⟩
  rw [hbodies, hcontent]
  exact Lines.bodies_flatten (hreg.tidy.isLines (Lines.isLines_lines _) start)

theorem deletes : Deletes malloc file sec.toCStr key.toCStr := by
  obtain ⟨file', hwrite, hbodies⟩ := @write_deletion malloc file sec _ (regular_key sec key none)
    fun f line => length_edited_none line
  have hedit : Edit sec.toCStr key.toCStr none none start
      (texts (front (iniSlurp file) sec.toCStr (some key.toCStr) none).1)
      (Lines.lines newline (slurped file))
      (front (iniSlurp file) sec.toCStr (some key.toCStr) none).2 := edit_all rfl
  refine ⟨file', hwrite, fun cap sec' key' => ?_⟩
  have hnew : textBindings (slurped (some file')) =
      bindings none (texts (front (iniSlurp file) sec.toCStr (some key.toCStr) none).1) := by
    rw [textBindings, ← @bindings_map_body none (texts _), ← hbodies]
    rfl
  rw [lookup_eq, hnew]
  split
  · rename_i hsame
    rw [names_congr hsame.1 hsame.2, List.find?_eq_none.mpr ?_]
    · rfl
    · intro x hx hname
      obtain ⟨v, hv, _⟩ := hedit.set x hx hname
      cases hv
  · rename_i hother
    rw [hedit.same.find? (names_other hother), lookup_eq, textBindings_eq]

theorem deletesSection : DeletesSection malloc file sec.toCStr := by
  obtain ⟨file', hwrite, hbodies⟩ := @write_deletion malloc file sec _ (regular_section sec.toCStr)
    fun f line => length_deleted line
  have hleft := @bindings_deleted none start sec.toCStr (Lines.lines newline (slurped file)) none
    rfl
    (fun _ => rfl) rfl
  refine ⟨file', hwrite, fun cap sec' key' => ?_⟩
  have hnew : textBindings (slurped (some file')) =
      (textBindings (slurped file)).filter fun x => !iniIeq x.sec sec.bytes := by
    rw [textBindings_eq (slurped file), ← hleft, ← bindings_map_body, textBindings]
    exact congrArg _ hbodies
  rw [lookup_eq, hnew]
  split
  · rename_i hsame
    rw [List.find?_eq_none.mpr ?_]
    · rfl
    · intro x hx hname
      rw [Binding.names, Bool.and_eq_true] at hname
      have hin : iniIeq x.sec sec.bytes = true :=
        iniIeq_iff.mpr ((iniIeq_iff.mp hname.1).trans hsame)
      rw [List.mem_filter, hin] at hx
      cases hx.2
  · rename_i hother
    have hsame : SameBut (fun x => iniIeq x.sec sec.bytes)
        ((textBindings (slurped file)).filter fun x => !iniIeq x.sec sec.bytes)
        (textBindings (slurped file)) := by
      rw [SameBut, List.filter_filter]
      simp only [Bool.and_self]
    rw [hsame.find? ?_, lookup_eq]
    intro x hname
    rw [Binding.names, Bool.and_eq_true] at hname
    exact Bool.eq_false_iff.mpr fun hin => hother (sameName_of_iniIeq hname.1 hin)

/-- Every deletion obeys the laws; a setting does, and stays inside its block, exactly where it
fits. -/
theorem rewrite_lawful_iff (malloc : (n : ℕ) → Vector UInt8 n) (file : Option Bytes)
    (sec key value : Plain) :
    (Sets malloc file sec.toCStr key.toCStr value.toCStr ↔
      Fits file sec.toCStr key.toCStr value.toCStr) ∧
    Deletes malloc file sec.toCStr key.toCStr ∧ DeletesSection malloc file sec.toCStr :=
  ⟨sets_iff, deletes, deletesSection⟩

/-- Four lines that set the key of `[s]`, each of which becomes a line of 70 bytes; the block has
room for two of them. -/
theorem not_rewrite_lawful :
    ¬ ∀ (malloc : (n : ℕ) → Vector UInt8 n) (file : Option Bytes) (sec key value : Plain),
      Sets malloc file sec.toCStr key.toCStr value.toCStr := by
  intro h
  obtain ⟨file', hwrite, _⟩ := h (fun n => Vector.replicate n 0)
    (some [91, 115, 93, 10, 107, 61, 10, 107, 61, 10, 107, 61, 10, 107, 61, 10])
    ⟨⟨[115], by decide⟩, by simp, by simp [isBlankOrCr], by simp [isBlankOrCr]⟩
    ⟨⟨[107], by decide⟩, by simp, by simp [isBlankOrCr], by simp [isBlankOrCr]⟩
    ⟨⟨List.replicate 67 118, by decide⟩, by simp, by simp [isBlankOrCr], by simp [isBlankOrCr]⟩
  have hnone : writePrivateProfileStringA (fun n => Vector.replicate n 0)
      (some [91, 115, 93, 10, 107, 61, 10, 107, 61, 10, 107, 61, 10, 107, 61, 10])
      ⟨[115], by decide⟩ (some ⟨[107], by decide⟩) (some ⟨List.replicate 67 118, by decide⟩) =
      none := by
    decide +kernel
  rw [hnone] at hwrite
  cases hwrite

end

end Aret.Ini
