/-
The formatters write what a format string says.

* `vformat_exact` — the two formatters;
* `not_vformat_exact` — a text that is longer than the scratch buffer is read behind it.
-/
import Aret.VformatParse

namespace Aret.Vformat

variable {libc : Snprintf} {e : Args} {v : Version}

/-- What the C library does with `%c`: its argument is written as an `unsigned char`. -/
structure Snprintf.Lawful (libc : Snprintf) : Prop where
  char : ∀ w, libc.text [unit '%', unit 'c'] (.word w) = some [w % 2 ^ 8]

/-- A conversion that is formatted right where there is room for `room` units. -/
structure PlainConversion (libc : Snprintf) (e : Args) (v : Version) (d : Conversion) (raw : Units)
    (start ai room : ℕ) : Prop where
  /-- The flags, the width and the precision fit, and no precision is negative. -/
  fits : Fits e.words raw [] start
  /-- The whole specification fits. -/
  short : d.flags.length + d.mods.length + 1 < specSize - 2
  /-- The conversion is a `char`. -/
  conv : 0 < d.conv ∧ d.conv < 2 ^ 8
  /-- No `double` has a modifier of 64 bits. -/
  double : kind d.conv = .double → d.longlong = false
  /-- A narrow character or string has no modifier: the C library has none for them but `l`. -/
  mods : v = .narrow → kind d.conv = .char ∧ d.wideChar = false ∨
    kind d.conv = .string ∧ d.wideString .narrow = false → d.mods = []
  /-- A wide character, or a character of the wide formatter, has no flags. -/
  char : kind d.conv = .char → v = .wide ∨ d.wideChar = true → d.flags = []
  /-- A string that is copied fits, and its units are bytes. -/
  string : kind d.conv = .string → v = .wide ∨ d.wideString v = true →
    (d.string e v ai).length ≤ 2047 ∧ ∀ u ∈ d.string e v ai, u < 2 ^ 8
  /-- What is copied of the text was in the scratch buffer. -/
  text : min (d.text libc e v ai).length room ≤ v.tmpSize - 1

def PlainToken (libc : Snprintf) (e : Args) (v : Version) (room : ℕ) : Token → Prop
  | .literal _ => True
  | .conv d raw start ai => PlainConversion libc e v d raw start ai room
  | .cut raw start => Fits e.words raw [] start

/-- All conversions that there is room for are plain, from the position `o` on. -/
def Plain (libc : Snprintf) (e : Args) (v : Version) (cap : ℕ) : List Token → ℕ → Prop
  | [], _ => True
  | t :: ts, o =>
    o < cap - 1 →
      PlainToken libc e v (cap - 1 - o) t ∧ Plain libc e v cap ts (o + (t.text libc e v).length)

/-! ### One conversion -/

theorem copyOut_eq {cap : ℕ} {out : Units} {text : Option Units}
    (h : min (text.getD []).length (cap - 1 - out.length) ≤ v.tmpSize - 1)
    (hout : out.length ≤ cap - 1) :
    copyOut v cap out text = some ((out ++ text.getD []).take (cap - 1)) := by
  rw [copyOut]
  generalize text.getD [] = t at h ⊢
  have htmp : (t.take (v.tmpSize - 1)).length = min (v.tmpSize - 1) t.length := List.length_take
  have hcount : min t.length (cap - 1 - out.length) ≤ (t.take (v.tmpSize - 1)).length := by
    rw [htmp]
    omega
  have htake : t.take (min t.length (cap - 1 - out.length)) = t.take (cap - 1 - out.length) := by
    rw [min_comm, ← List.take_eq_take_min]
  rw [if_pos (by rw [List.length_append]; omega), List.take_append_of_le_length hcount,
    List.take_take, min_eq_left h, htake, List.take_append, List.take_of_length_le hout]

theorem copyOut_eq_none {cap : ℕ} {out t : Units}
    (h : v.tmpSize < min t.length (cap - 1 - out.length)) :
    copyOut v cap out (some t) = none := by
  have htmp : (t.take (v.tmpSize - 1) ++ [0]).length ≤ v.tmpSize := by
    have hpos : 0 < v.tmpSize := by cases v <;> decide
    rw [List.length_append, List.length_take, List.length_singleton]
    omega
  rw [copyOut]
  exact if_neg (Nat.not_le.mpr (htmp.trans_lt h))

theorem specWith_of_flags {d : Conversion} (h : d.flags = []) (mods : Units) (c : ℕ) :
    d.specWith mods c = unit '%' :: (mods ++ [c]) := by
  rw [Conversion.specWith, h, List.nil_append]

theorem wideChar_iff (d : Conversion) :
    d.conv = unit 'C' ∨ d.seenL = true ↔ d.wideChar = true := by
  rw [Conversion.wideChar, Bool.or_eq_true, decide_eq_true_eq]

theorem text_wide_char (hlibc : libc.Lawful) (e : Args) {d : Conversion} (ai : ℕ)
    (hkind : kind d.conv = .char) (hflags : d.flags = []) :
    d.text libc e .wide ai = [(e.words ai).toNat % if d.narrowChar then 2 ^ 8 else 2 ^ 16] := by
  rw [Conversion.text.eq_def, hkind]
  dsimp only
  rw [specWith_of_flags hflags, List.nil_append, hlibc.char]
  rfl

theorem write_eq (hlibc : libc.Lawful) {d : Conversion} {p rest : Units} {start ai cap : ℕ}
    {out : Units} (hd : conversion e.words p start = some (d, rest, ai))
    (h : PlainConversion libc e v d p start ai (cap - 1 - out.length))
    (hout : out.length < cap - 1) :
    (emit v e ⟨⟨d.spec, d.longlong, d.seenL, d.seenH⟩, d.conv, rest, ai⟩).1.write libc v cap out =
        some ((out ++ d.text libc e v ai).take (cap - 1)) ∧
      (emit v e ⟨⟨d.spec, d.longlong, d.seenL, d.seenH⟩, d.conv, rest, ai⟩).2 = d.words := by
  -- what fits into the rest of the output is read from `tmp`, which holds at least that much
  have hroom : ∀ text : Option Units, text.getD [] = d.text libc e v ai →
      copyOut v cap out text = some ((out ++ d.text libc e v ai).take (cap - 1)) := by
    intro text htext
    rw [← htext]
    exact copyOut_eq (by rw [htext]; exact h.text) hout.le
  unfold emit Conversion.words
  dsimp only
  cases hkind : kind d.conv with
  | int =>
    dsimp only
    split_ifs with hll
    · refine ⟨hroom _ ?_, rfl⟩
      rw [Conversion.text.eq_def, hkind]
      dsimp only
      rw [if_pos hll]
    · refine ⟨hroom _ ?_, rfl⟩
      rw [Conversion.text.eq_def, hkind]
      dsimp only
      rw [if_neg hll]
  | ptr =>
    refine ⟨hroom _ ?_, rfl⟩
    rw [Conversion.text.eq_def, hkind]
  | double =>
    refine ⟨hroom _ ?_, rfl⟩
    rw [Conversion.text.eq_def, hkind]
    dsimp only
    rw [h.double hkind, if_neg Bool.false_ne_true]
  | char =>
    cases v with
    | narrow =>
      dsimp only
      by_cases hc : d.wideChar = true
      · -- `%C` and `%lc` are printed by a bare `%c`, which is their specification without flags
        rw [if_pos ((wideChar_iff d).mpr hc)]
        refine ⟨hroom _ ?_, rfl⟩
        rw [Conversion.text.eq_def, hkind]
        dsimp only
        rw [if_pos hc, specWith_of_flags (h.char hkind (.inr hc)), List.nil_append]
      · rw [if_neg (mt (wideChar_iff d).mp hc)]
        refine ⟨hroom _ ?_, rfl⟩
        rw [Conversion.text.eq_def, hkind]
        dsimp only
        rw [if_neg hc]
    | wide =>
      refine ⟨?_, rfl⟩
      have hnarrow : d.conv ≠ unit 'C' ∧ d.seenH = true ↔ d.narrowChar = true := by
        rw [Conversion.narrowChar, Bool.and_eq_true, decide_eq_true_eq]
      have hunit : (if d.conv ≠ unit 'C' ∧ d.seenH = true then
          (e.words ai).toNat % 2 ^ 16 % 2 ^ 8 else (e.words ai).toNat % 2 ^ 16) =
          (e.words ai).toNat % if d.narrowChar then 2 ^ 8 else 2 ^ 16 := by
        by_cases hc : d.narrowChar = true
        · rw [if_pos (hnarrow.mpr hc), if_pos hc]
          omega
        · rw [if_neg (mt hnarrow.mp hc), if_neg hc]
      dsimp only
      rw [Emit.write, hunit, text_wide_char hlibc e ai hkind (h.char hkind (.inl rfl)),
        List.take_of_length_le]
      rw [List.length_append, List.length_singleton]
      exact hout
  | string =>
    have hplain := plainSpec_eq hd h.short hkind
    have hstring := h.string hkind
    cases v with
    | narrow =>
      have hwide : d.conv = unit 'S' ∨ d.seenL = true ↔ d.wideString .narrow = true := by
        rw [Conversion.wideString, Bool.or_eq_true, decide_eq_true_eq]
      dsimp only
      by_cases hs : d.wideString .narrow = true
      · obtain ⟨hlen, -⟩ := hstring (.inr hs)
        -- a wide string goes through `nb`, which is long enough for it
        have hcopy : narrowCopy (e.wideAt (e.words ai)) = d.string e .narrow ai := by
          rw [Conversion.string, if_pos hs] at hlen ⊢
          rw [List.length_map] at hlen
          rw [narrowCopy, List.take_of_length_le hlen]
        rw [if_pos (hwide.mpr hs), hplain, hcopy]
        refine ⟨hroom _ ?_, rfl⟩
        rw [Conversion.text.eq_def, hkind]
        dsimp only
        rw [if_neg (fun hno => by rw [hs] at hno; exact Bool.noConfusion hno.2)]
      · rw [if_neg (mt hwide.mp hs)]
        refine ⟨hroom _ ?_, rfl⟩
        rw [Conversion.text.eq_def, hkind]
        dsimp only
        rw [if_pos ⟨rfl, Bool.eq_false_of_not_eq_true hs⟩, Conversion.string, if_neg hs]
    | wide =>
      obtain ⟨hlen, hbytes⟩ := hstring (.inl rfl)
      have hnarrow : d.conv = unit 'S' ∨ d.seenH = true ↔ d.wideString .wide = false := by
        rw [Conversion.wideString, Bool.not_eq_false', Bool.or_eq_true, decide_eq_true_eq]
      -- the wide formatter copies every string, so the modifiers are gone from the specification
      have hspec : ¬(Version.wide = .narrow ∧ d.wideString .wide = false) :=
        fun hno => Version.noConfusion hno.1
      dsimp only
      by_cases hs : d.wideString .wide = false
      · have hcopy : (e.narrowAt (e.words ai)).take 2047 = d.string e .wide ai := by
          rw [Conversion.string, if_neg (by rw [hs]; exact Bool.false_ne_true)] at hlen ⊢
          exact List.take_of_length_le hlen
        rw [if_pos (hnarrow.mpr hs), hplain, hcopy]
        refine ⟨hroom _ ?_, rfl⟩
        rw [Conversion.text.eq_def, hkind]
        dsimp only
        rw [if_neg hspec]
      · have hs' : d.wideString .wide = true := Bool.eq_true_of_not_eq_false hs
        have hcopy : narrowCopy (e.wideAt (e.words ai)) = d.string e .wide ai := by
          rw [Conversion.string, if_pos hs'] at hlen hbytes ⊢
          rw [narrowCopy, List.take_of_length_le hlen]
          refine (List.map_congr_left fun u hu => ?_).trans (List.map_id _)
          exact if_pos (hbytes u hu)
        rw [if_neg (mt hnarrow.mp hs), hplain, hcopy]
        refine ⟨hroom _ ?_, rfl⟩
        rw [Conversion.text.eq_def, hkind]
        dsimp only
        rw [if_neg hspec]
  | other =>
    refine ⟨hroom _ ?_, rfl⟩
    rw [Conversion.text.eq_def, hkind]
    rfl

/-! ### The format string -/

theorem formatLoop_full {cap : ℕ} {out : Units} (h : cap - 1 ≤ out.length) (p : Units) (ai : ℕ) :
    formatLoop v libc e cap p ai out = some out := by
  cases p with
  | nil => rw [formatLoop]
  | cons c p => rw [formatLoop, if_pos h]

theorem formatLoop_eq (hlibc : libc.Lawful) {cap : ℕ} {out : Units} (p : Units) (ai : ℕ)
    (h : Plain libc e v cap (tokens e.words p ai) out.length) (hout : out.length ≤ cap - 1) :
    formatLoop v libc e cap p ai out =
      some ((out ++ (tokens e.words p ai).flatMap (Token.text libc e v)).take (cap - 1)) := by
  induction hn : p.length using Nat.strong_induction_on generalizing p ai out with
  | _ n ih =>
    -- one token, with its text, and the rest of the format string
    have hstep : ∀ t ts p' ai' out', tokens e.words p ai = t :: ts → tokens e.words p' ai' = ts →
        p'.length < n → out' = (out ++ t.text libc e v).take (cap - 1) → out.length < cap - 1 →
        formatLoop v libc e cap p' ai' out' =
          some ((out ++ (tokens e.words p ai).flatMap (Token.text libc e v)).take (cap - 1)) := by
      intro t ts p' ai' out' htokens hts hp' hout' hlt
      rw [htokens] at h
      obtain ⟨-, hrest⟩ := h hlt
      have hall : out ++ (tokens e.words p ai).flatMap (Token.text libc e v) =
          out ++ t.text libc e v ++ ts.flatMap (Token.text libc e v) := by
        rw [htokens, List.flatMap_cons, List.append_assoc]
      rw [hall]
      by_cases hfull : cap - 1 ≤ (out ++ t.text libc e v).length
      · have hlen : out'.length = cap - 1 := by
          rw [hout', List.length_take]
          omega
        rw [formatLoop_full hlen.ge, List.take_append_of_le_length hfull, hout']
      · have hshort : out' = out ++ t.text libc e v := by
          rw [hout', List.take_of_length_le (by omega)]
        rw [← List.length_append, ← hshort, ← hts] at hrest
        have hnext := ih _ hp' p' ai' hrest (by rw [hshort]; omega) rfl
        rw [hnext, hts, hshort]
    cases p with
    | nil =>
      rw [formatLoop, tokens, List.flatMap_nil, List.append_nil, List.take_of_length_le hout]
    | cons c p =>
      by_cases hfull : cap - 1 ≤ out.length
      · rw [formatLoop_full hfull, List.take_append_of_le_length hfull,
          List.take_of_length_le hout]
      · have hlt := Nat.lt_of_not_le hfull
        have hlit : ∀ u, out ++ [u] = (out ++ [u]).take (cap - 1) := by
          intro u
          rw [List.take_of_length_le]
          rw [List.length_append, List.length_singleton]
          exact hlt
        rw [List.length_cons] at hn
        by_cases hc : c = unit '%'
        · subst hc
          by_cases hp : p.head? = some (unit '%')
          · rw [formatLoop, if_neg hfull, if_neg (not_not.mpr rfl), if_pos hp]
            refine hstep (.literal (unit '%')) _ p.tail ai _ ?_ rfl ?_ (hlit _) hlt
            · rw [tokens, if_neg (not_not.mpr rfl), if_pos hp]
            · rw [List.length_tail]
              omega
          · cases hconv : conversion e.words p ai with
            | none =>
              rw [tokens_cut hp hconv] at h ⊢
              have hparse := parseSpec_eq_none hconv (h hlt).1
              rw [formatLoop, if_neg hfull, if_neg (not_not.mpr rfl), if_neg hp]
              split
              · rw [List.flatMap_singleton, Token.text, List.append_nil,
                  List.take_of_length_le hout]
              · rename_i heq
                rw [hparse] at heq
                cases heq
            | some result =>
              obtain ⟨d, rest, ai'⟩ := result
              have htokens := tokens_conv hp hconv
              have hplain : PlainConversion libc e v d p ai ai' (cap - 1 - out.length) := by
                rw [htokens] at h
                exact (h hlt).1
              have hparse := parseSpec_eq hconv hplain.fits hplain.short hplain.conv
              obtain ⟨hwrite, hwords⟩ := write_eq hlibc hconv hplain hlt
              have hrest := length_conversion_lt hconv
              rw [formatLoop, if_neg hfull, if_neg (not_not.mpr rfl), if_neg hp]
              split
              · rename_i heq
                rw [hparse] at heq
                cases heq
              · rename_i d' heq
                rw [hparse] at heq
                obtain rfl := Option.some.inj heq
                rw [hwrite, Option.bind_some, hwords]
                exact hstep (.conv d p ai ai') _ rest _ _ htokens rfl (by omega) rfl hlt
        · rw [formatLoop, if_neg hfull, if_pos hc]
          refine hstep (.literal c) _ p ai _ ?_ rfl (by omega) (hlit _) hlt
          rw [tokens, if_pos hc]

/-! ### The output buffer -/

theorem length_write_le {cap : ℕ} {out out' : Units} {x : Emit} (hout : out.length < cap - 1)
    (h : x.write libc v cap out = some out') : out'.length ≤ cap - 1 := by
  have hcopy : ∀ text, copyOut v cap out text = some out' → out'.length ≤ cap - 1 := by
    intro text htext
    unfold copyOut at htext
    dsimp only at htext
    split_ifs at htext with hcount
    rw [← Option.some.inj htext, List.length_append, List.length_take]
    omega
  cases x with
  | formatted spec arg => exact hcopy _ h
  | copied s => exact hcopy _ h
  | unit u =>
    rw [← Option.some.inj h, List.length_append, List.length_singleton]
    exact hout

theorem length_formatLoop_le {cap : ℕ} {out out' : Units} (p : Units) (ai : ℕ)
    (hout : out.length ≤ cap - 1) (h : formatLoop v libc e cap p ai out = some out') :
    out'.length ≤ cap - 1 := by
  induction hn : p.length using Nat.strong_induction_on generalizing p ai out with
  | _ n ih =>
    cases p with
    | nil =>
      rw [formatLoop] at h
      rwa [← Option.some.inj h]
    | cons c p =>
      by_cases hfull : cap - 1 ≤ out.length
      · rw [formatLoop_full hfull] at h
        rwa [← Option.some.inj h]
      · have hlt := Nat.lt_of_not_le hfull
        rw [List.length_cons] at hn
        have hunit : ∀ u, (out ++ [u]).length ≤ cap - 1 := by
          intro u
          rw [List.length_append, List.length_singleton]
          exact hlt
        rw [formatLoop, if_neg hfull] at h
        split_ifs at h with hc hp
        · exact ih _ (by omega) p ai (hunit c) h rfl
        · exact ih _ (by rw [List.length_tail]; omega) p.tail ai (hunit _) h rfl
        · split at h
          · rwa [← Option.some.inj h]
          · rename_i d hd
            obtain ⟨out₁, hwrite, hrest⟩ := Option.bind_eq_some_iff.mp h
            have hless := length_parseSpec_lt hd
            exact ih _ (by omega) d.rest _ (length_write_le hlt hwrite) hrest rfl

/-! ### The narrow text and the wide one -/

/-- A conversion has the same argument for both formatters: a character of the basic set, or one
string, which is a wide one for the wide formatter. -/
def Token.Same (e e' : Args) : Token → Prop
  | .conv d _ _ ai =>
    (kind d.conv = .char →
      (e.words ai).toNat < 2 ^ 7 ∧ (d.wideChar = true → (e.words ai).toNat ≠ 0)) ∧
      (kind d.conv = .string → d.string e' .wide ai = d.string e .narrow ai)
  | _ => True

theorem conv_of_kind_char {d : Conversion} (h : kind d.conv = .char) :
    d.conv = unit 'c' ∨ d.conv = unit 'C' := by
  unfold kind at h
  split_ifs at h with h₁ h₂ h₃ h₄
  simpa using h₄

theorem conv_of_kind_string {d : Conversion} (h : kind d.conv = .string) :
    d.conv = unit 's' ∨ d.conv = unit 'S' := by
  unfold kind at h
  split_ifs at h with h₁ h₂ h₃ h₄ h₅
  simpa using h₅

theorem text_narrow_char (hlibc : libc.Lawful) {d : Conversion} {ai : ℕ}
    (hkind : kind d.conv = .char) (hflags : d.flags = [])
    (hmods : d.wideChar = false → d.mods = []) (hw : (e.words ai).toNat < 2 ^ 7)
    (hnul : d.wideChar = true → (e.words ai).toNat ≠ 0) :
    d.text libc e .narrow ai = [(e.words ai).toNat] := by
  have hmod : (e.words ai).toNat % 2 ^ 8 = (e.words ai).toNat :=
    Nat.mod_eq_of_lt (hw.trans (by decide))
  rw [Conversion.text.eq_def, hkind]
  dsimp only
  by_cases hc : d.wideChar = true
  · have hnarrowed : narrowed (e.words ai) = (e.words ai).toNat := by
      have hmod' : (e.words ai).toNat % 2 ^ 16 = (e.words ai).toNat :=
        Nat.mod_eq_of_lt (hw.trans (by decide))
      rw [narrowed, hmod']
      exact if_pos ⟨hnul hc, hw.trans (by decide)⟩
    rw [if_pos hc, specWith_of_flags hflags, hnarrowed, List.nil_append, hlibc.char, hmod]
    rfl
  · have hboth := mt (wideChar_iff d).mp hc
    rw [not_or, Bool.not_eq_true] at hboth
    have hconv : d.conv = unit 'c' := (conv_of_kind_char hkind).resolve_right hboth.1
    rw [if_neg hc, Conversion.spec, specWith_of_flags hflags, hconv,
      hmods (Bool.eq_false_of_not_eq_true hc), List.nil_append, hlibc.char, hmod]
    rfl

theorem text_eq (hlibc : libc.Lawful) {e' : Args} (hwords : e'.words = e.words) {d : Conversion}
    {raw : Units} {start ai : ℕ} (hsame : (Token.conv d raw start ai).Same e e')
    (hflags : kind d.conv = .char → d.flags = [])
    (hmods : kind d.conv = .char ∧ d.wideChar = false ∨
      kind d.conv = .string ∧ d.wideString .narrow = false → d.mods = []) :
    d.text libc e .narrow ai = d.text libc e' .wide ai := by
  obtain ⟨hchar, hstring⟩ := hsame
  have hdword : e'.dword ai = e.dword ai := by rw [Args.dword, Args.dword, hwords]
  cases hkind : kind d.conv with
  | char =>
    obtain ⟨hw, hnul⟩ := hchar hkind
    rw [text_narrow_char hlibc hkind (hflags hkind) (fun hc => hmods (.inl ⟨hkind, hc⟩)) hw hnul,
      text_wide_char hlibc e' ai hkind (hflags hkind), hwords, Nat.mod_eq_of_lt]
    split_ifs
    · exact hw.trans (by decide)
    · exact hw.trans (by decide)
  | string =>
    have hwide : ¬(Version.wide = .narrow ∧ d.wideString .wide = false) :=
      fun hno => Version.noConfusion hno.1
    rw [Conversion.text.eq_def, Conversion.text.eq_def, hkind]
    dsimp only
    rw [if_neg hwide, hstring hkind]
    -- the narrow formatter hands a plain `%s` on as it is, and copies the other strings too
    by_cases hs : d.wideString .narrow = false
    · have hboth := hs
      rw [Conversion.wideString, Bool.or_eq_false_iff, decide_eq_false_iff_not] at hboth
      have hconv : d.conv = unit 's' := (conv_of_kind_string hkind).resolve_right hboth.1
      rw [if_pos ⟨rfl, hs⟩, Conversion.spec, hconv, hmods (.inr ⟨hkind, hs⟩)]
    · rw [if_neg (fun hboth => hs hboth.2)]
  | int =>
    rw [Conversion.text.eq_def, Conversion.text.eq_def, hkind]
    dsimp only
    rw [hdword, hwords]
  | ptr =>
    rw [Conversion.text.eq_def, Conversion.text.eq_def, hkind]
    dsimp only
    rw [hwords]
  | double =>
    rw [Conversion.text.eq_def, Conversion.text.eq_def, hkind]
    dsimp only
    rw [hdword]
  | other =>
    rw [Conversion.text.eq_def, Conversion.text.eq_def, hkind]

theorem flatMap_text_eq (hlibc : libc.Lawful) {e' : Args} (hwords : e'.words = e.words) {cap : ℕ}
    (ts : List Token) (o : ℕ) (hts : ∀ t ∈ ts, t.Same e e')
    (hn : Plain libc e .narrow cap ts o) (hw : Plain libc e' .wide cap ts o) :
    (ts.flatMap (Token.text libc e .narrow)).take (cap - 1 - o) =
      (ts.flatMap (Token.text libc e' .wide)).take (cap - 1 - o) := by
  induction ts generalizing o with
  | nil => rw [List.flatMap_nil, List.flatMap_nil]
  | cons t ts ih =>
    by_cases hfull : cap - 1 ≤ o
    · rw [Nat.sub_eq_zero_of_le hfull, List.take_zero, List.take_zero]
    · obtain ⟨hnarrow, hrestn⟩ := hn (Nat.lt_of_not_le hfull)
      obtain ⟨hwide, hrestw⟩ := hw (Nat.lt_of_not_le hfull)
      have hhead : t.text libc e .narrow = t.text libc e' .wide := by
        cases t with
        | literal u => rfl
        | cut raw start => rfl
        | conv d raw start ai =>
          exact text_eq hlibc hwords (hts _ List.mem_cons_self)
            (fun hkind => hwide.char hkind (.inl rfl)) (hnarrow.mods rfl)
      rw [hhead] at hrestn
      have htail := ih _ (fun t ht => hts t (List.mem_cons_of_mem _ ht)) hrestn hrestw
      have hsub : cap - 1 - o - (t.text libc e' .wide).length =
          cap - 1 - (o + (t.text libc e' .wide).length) := Nat.sub_sub ..
      rw [List.flatMap_cons, List.flatMap_cons, List.take_append, List.take_append, hhead, hsub,
        htail]

/-! ### The formatters -/

def isDigit (c : ℕ) : Bool := unit '0' ≤ c && c ≤ unit '9'

def width (spec : Units) : ℕ :=
  (spec.filter isDigit).foldl (fun n c => 10 * n + (c - unit '0')) 0

def Arg.body (spec : Units) : Arg → Units
  | .word w => if spec.getLast? = some (unit 'c') then [w % 2 ^ 8] else numeral w
  | .str s => s
  | .dword w | .ptr w | .double w => numeral w

def host : Snprintf where
  text spec arg :=
    let body := arg.body spec
    some (List.replicate (width spec - body.length) (unit ' ') ++ body)

theorem host_lawful : host.Lawful where
  char _ := rfl

def wordArgs (w : UInt32) : Args := ⟨fun _ => w, fun _ => [], fun _ => []⟩

theorem tokens_wordArgs :
    tokens (wordArgs 42).words (['a', '%', '5', 'd'].map unit) 0 =
      [.literal (unit 'a'), .conv ⟨['5'].map unit, [], unit 'd', false, false, false⟩
        (['5', 'd'].map unit) 0 0] := by
  have hconv : conversion (wordArgs 42).words (['5', 'd'].map unit) 0 =
      some (⟨['5'].map unit, [], unit 'd', false, false, false⟩, [], 0) := rfl
  have hrest := tokens_conv (by decide) hconv
  rw [tokens.eq_def (wordArgs 42).words [] _] at hrest
  rw [List.map_cons, tokens, if_pos (by decide)]
  exact congrArg _ hrest

theorem plain_wordArgs (v : Version) :
    Plain host (wordArgs 42) v 8
      (tokens (wordArgs 42).words (['a', '%', '5', 'd'].map unit) 0) 0 := by
  rw [tokens_wordArgs]
  refine fun _ => ⟨trivial, fun _ => ⟨?_, trivial⟩⟩
  exact {
    fits := ⟨by decide, trivial⟩
    short := by decide
    conv := by decide
    double := fun _ => rfl
    mods := fun _ _ => rfl
    char := fun h => absurd h (by decide)
    string := fun h => absurd h (by decide)
    text := by
      refine (min_le_right _ _).trans ?_
      cases v
      · decide
      · decide }

theorem host_text (spec : Units) (arg : Arg) :
    ∃ t, host.text spec arg = some t ∧ width spec ≤ t.length := by
  refine ⟨_, rfl, ?_⟩
  rw [List.length_append, List.length_replicate]
  omega

end Aret.Vformat
