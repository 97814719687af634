/-
The calls of the synthetic stdio on one `FILE`.
-/
import Aret.StdioStreams

namespace Aret.Stdio

open CStream

/-- The `FILE` is the stream over the descriptor. -/
structure Has (s : State) (f : File) (fd : ℕ) (st : Stream UInt8) : Prop where
  isOpen : IsOpen s f
  fileFd : fileFd s f = some fd
  desc : s.fds.get fd = some st.desc
  pushed : (s.files f).ungot = st.pushed
  eof : (s.files f).eof = st.eof

/-- The second state is the first but for the `FILE`, which is the stream over the descriptor. -/
structure Becomes (s s' : State) (f : File) (fd : ℕ) (st : Stream UInt8) : Prop where
  used : s'.used = s.used
  popenTab : s'.popenTab = s.popenTab
  files : ∀ g, g ≠ f → s'.files g = s.files g
  file : (s'.files f).file = (s.files f).file
  fds : ∀ j, j ≠ fd → s'.fds.get j = s.fds.get j
  desc : s'.fds.get fd = some st.desc
  pushed : (s'.files f).ungot = st.pushed
  eof : (s'.files f).eof = st.eof

section

variable {s s' s'' : State} {f : File} {fd n : ℕ} {st st' st'' : Stream UInt8}

theorem Has.becomes_self (h : Has s f fd st) : Becomes s s f fd st :=
  ⟨rfl, rfl, fun _ _ => rfl, rfl, fun _ _ => rfl, h.desc, h.pushed, h.eof⟩

theorem Becomes.trans (h : Becomes s s' f fd st') (h' : Becomes s' s'' f fd st'') :
    Becomes s s'' f fd st'' where
  used := h'.used.trans h.used
  popenTab := h'.popenTab.trans h.popenTab
  files g hg := (h'.files g hg).trans (h.files g hg)
  file := h'.file.trans h.file
  fds j hj := (h'.fds j hj).trans (h.fds j hj)
  desc := h'.desc
  pushed := h'.pushed
  eof := h'.eof

theorem fileFd_eq (hfile : ∀ i, (s'.files (.dyn i)).file = (s.files (.dyn i)).file) (g : File) :
    fileFd s' g = fileFd s g := by
  cases g with
  | dyn i => rw [fileFd, fileFd, hfile]
  | _ => rfl

theorem isOpen_eq (hused : s'.used = s.used) (g : File) : IsOpen s' g ↔ IsOpen s g := by
  cases g with
  | dyn i => rw [IsOpen, IsOpen, hused]
  | _ => rfl

theorem Becomes.file_eq (h : Becomes s s' f fd st') (g : File) :
    (s'.files g).file = (s.files g).file := by
  by_cases hg : g = f
  · rw [hg, h.file]
  · rw [h.files g hg]

theorem Becomes.fileFd_eq (h : Becomes s s' f fd st') (g : File) : fileFd s' g = fileFd s g :=
  Stdio.fileFd_eq (fun i => h.file_eq (.dyn i)) g

theorem Becomes.has (h : Becomes s s' f fd st') (hs : Has s f fd st) : Has s' f fd st' :=
  ⟨(isOpen_eq h.used f).mpr hs.isOpen, (h.fileFd_eq f).trans hs.fileFd, h.desc, h.pushed, h.eof⟩

/-! ### The parts of a call -/

theorem becomes_setFile (h : Has s f fd st) {r : FileRec} (hr : r.file = (s.files f).file)
    (hdesc : st'.desc = st.desc) (hpushed : r.ungot = st'.pushed) (heof : r.eof = st'.eof) :
    Becomes s (setFile s f r) f fd st' := by
  have hself : (setFile s f r).files f = r := Function.update_self ..
  refine ⟨rfl, rfl, fun g hg => Function.update_of_ne hg .., ?_, fun _ _ => rfl, ?_, ?_, ?_⟩
  · rw [hself, hr]
  · rw [hdesc]
    exact h.desc
  · rw [hself, hpushed]
  · rw [hself, heof]

theorem becomes_set (h : Has s f fd st) (d : Desc UInt8) :
    Becomes s { s with fds := s.fds.set fd (some d) } f fd ⟨d, st.pushed, st.eof⟩ := by
  have hget : ∀ j, Slots.get (s.fds.set fd (some d)) j = if j = fd then some d else s.fds.get j :=
    fun j => Slots.get_set (Slots.lt_length_of_get h.desc)
  exact ⟨rfl, rfl, fun _ _ => rfl, rfl, fun j hj => (hget j).trans (if_neg hj),
    (hget fd).trans (if_pos rfl), h.pushed, h.eof⟩

theorem hostRead_eq (h : Has s f fd st) (n : ℕ) :
    hostRead s fd n =
      ((st.desc.read n).1, { s with fds := s.fds.set fd (some (st.desc.read n).2) }) := by
  rw [hostRead, h.desc]

theorem hostSeek_eq (h : Has s f fd st) (off : ℤ) (origin : ℕ) :
    hostSeek s fd off origin =
      match st.desc.lseek off origin with
      | none => (-1, s)
      | some d => (d.offset, { s with fds := s.fds.set fd (some d) }) := by
  rw [hostSeek, h.desc]
  rfl

/-! ### Reading -/

theorem pullByte_spec (h : Has s f fd st) :
    (pullByte s f).1 = (st.take 1).1.head? ∧ Becomes s (pullByte s f).2 f fd (st.take 1).2 := by
  obtain ⟨d, pushed, eof⟩ := st
  have hungot : (s.files f).ungot = pushed := h.pushed
  rw [pullByte, h.fileFd]
  dsimp only
  rw [hungot]
  cases pushed with
  | some c =>
    have hrem : Stream.remaining ⟨d, some c, eof⟩ = c :: d.ahead := rfl
    have htake : Stream.take ⟨d, some c, eof⟩ 1 = ([c], ⟨d, none, eof⟩) := by
      have hlong : ¬(c :: d.ahead).length < 1 := by
        rw [List.length_cons]
        omega
      rw [Stream.take, hrem, decide_eq_false hlong, Bool.or_false]
      rfl
    rw [htake]
    exact ⟨rfl, becomes_setFile h rfl rfl rfl h.eof⟩
  | none =>
    have hrem : Stream.remaining ⟨d, none, eof⟩ = d.ahead := List.nil_append _
    rw [hostRead_eq h]
    dsimp only
    rcases Desc.read_cases (d := d) Nat.one_pos with ⟨hend, hread⟩ | ⟨k, hpos, hle, hlen, hread⟩
    · have htake : Stream.take ⟨d, none, eof⟩ 1 = ([], ⟨d, none, true⟩) := by
        rw [Stream.take, hrem, hend, List.take_nil]
        exact congrArg (fun b => (([] : List UInt8), Stream.mk d none b)) (Bool.or_true eof)
      rw [htake, hread]
      have hsame := becomes_set h d
      exact ⟨rfl, hsame.trans (becomes_setFile (hsame.has h) rfl rfl h.pushed rfl)⟩
    · obtain rfl : k = 1 := by omega
      cases hahead : d.ahead with
      | nil =>
        rw [hahead] at hlen
        exact absurd hlen (by decide)
      | cons c rest =>
        have htake : Stream.take ⟨d, none, eof⟩ 1 = ([c], ⟨d.advance 1, none, eof⟩) := by
          have hlong : ¬(c :: rest).length < 1 := by
            rw [List.length_cons]
            omega
          rw [Stream.take, hrem, hahead, decide_eq_false hlong, Bool.or_false]
          rfl
        rw [htake, hread, hahead]
        exact ⟨rfl, becomes_set h (d.advance 1)⟩

theorem getsLoop_spec (h : Has s f fd st) (n : ℕ) :
    (getsLoop s f n).1 = (st.gets (· = 0x0A) n).1 ∧
      Becomes s (getsLoop s f n).2 f fd (st.gets (· = 0x0A) n).2 := by
  induction n generalizing s st with
  | zero =>
    rw [Stream.gets_zero]
    exact ⟨rfl, h.becomes_self⟩
  | succ n ih =>
    obtain ⟨hbyte, hbecomes⟩ := pullByte_spec h
    obtain ⟨hline, hrest⟩ := ih (hbecomes.has h)
    rw [Stream.gets_succ, getsLoop]
    cases htake : (st.take 1).1 with
    | nil =>
      rw [htake, List.head?_nil] at hbyte
      rw [← Prod.mk.eta (p := pullByte s f), hbyte]
      exact ⟨rfl, hbecomes⟩
    | cons c bs =>
      rw [htake, List.head?_cons] at hbyte
      rw [← Prod.mk.eta (p := pullByte s f), hbyte]
      by_cases hc : c = 0x0A
      · simp only [hc, if_true, decide_true]
        exact ⟨trivial, hbecomes⟩
      · simp only [hc, if_false, decide_false, Bool.false_eq_true]
        exact ⟨by rw [hline], hbecomes.trans hrest⟩

theorem readLoop_spec (h : Has s f fd st) (want : ℕ) :
    (readLoop s fd want).1 = st.desc.ahead.take want ∧
      Becomes s (readLoop s fd want).2 f fd
        ⟨st.desc.advance (min want st.desc.ahead.length), st.pushed, st.eof⟩ := by
  induction want using Nat.strong_induction_on generalizing s st with
  | _ want ih =>
    rw [readLoop]
    by_cases hwant : want = 0
    · rw [dif_pos hwant, hwant, Nat.zero_min, Desc.advance_zero, List.take_zero]
      exact ⟨rfl, h.becomes_self⟩
    · rw [dif_neg hwant, hostRead_eq h]
      rcases Desc.read_cases (d := st.desc) (Nat.pos_of_ne_zero hwant) with
        ⟨hend, hread⟩ | ⟨k, hpos, hle, hlen, hread⟩
      · rw [hread, dif_pos rfl, hend, List.take_nil, List.length_nil, Nat.min_zero,
          Desc.advance_zero]
        exact ⟨rfl, becomes_set h st.desc⟩
      · -- `k` bytes are read, and the rest is asked for again
        have hbytes : (st.desc.ahead.take k).length = k := by
          rw [List.length_take]
          omega
        have hsome : st.desc.ahead.take k ≠ [] := by
          intro hnil
          rw [hnil, List.length_nil] at hbytes
          omega
        have hset := becomes_set h (st.desc.advance k)
        obtain ⟨hrest, hbecomes⟩ := ih (want - k) (by omega) (hset.has h)
        rw [Desc.ahead_advance, Desc.advance_advance, List.length_drop] at hbecomes
        rw [Desc.ahead_advance] at hrest
        rw [hread, dif_neg hsome]
        dsimp only
        rw [hbytes, hrest]
        have htotal : k + min (want - k) (st.desc.ahead.length - k) =
            min want st.desc.ahead.length := by omega
        rw [htotal] at hbecomes
        refine ⟨?_, hset.trans hbecomes⟩
        rw [← List.take_add, Nat.add_sub_cancel' hle]

theorem filbuf_spec (h : Has s f fd st) :
    (filbuf s f).1 = (st.take 1).1.head? ∧ Becomes s (filbuf s f).2 f fd (st.take 1).2 := by
  obtain ⟨hbyte, hbecomes⟩ := pullByte_spec h
  have hhas := hbecomes.has h
  unfold filbuf
  dsimp only
  rw [hhas.fileFd, Option.isSome_some, if_pos rfl]
  exact ⟨hbyte, hbecomes.trans (becomes_setFile hhas rfl rfl hhas.pushed hhas.eof)⟩

/-! ### Safe calls -/

def Safe (st : Stream UInt8) (child : Bool) : Op → Prop
  -- there is room for one byte
  | .ungetc c => c < 0 ∨ st.pushed = none
  -- the end of the file is not found behind the first byte
  | .fread size nmemb =>
    size = 0 ∨ (size * nmemb < 2 ^ 32 ∧
      (size * nmemb ≤ st.remaining.length ∨ st.remaining = [] ∨ st.eof = true))
  | .fseek off origin =>
    (origin = 1 → st.pushed = none) ∧
      (st.desc.lseek off origin = none → st.pushed = none ∧ st.eof = false)
  | .ftell => st.desc.seekable = true → st.pushed = none ∧ st.desc.offset < 2 ^ 32
  | .ftelli64 => st.desc.seekable = true → st.pushed = none ∧ st.desc.offset < 2 ^ 64
  | .fgetpos dest => dest = true → st.desc.seekable = true → st.pushed = none
  | .fsetpos pos =>
    ∀ p ∈ pos, st.desc.lseek p 0 ≠ none → st.pushed = none ∧ st.eof = false
  | .rewind => st.desc.seekable = false → st.pushed = none ∧ st.eof = false
  | .fclose => child = false
  | _ => True

def Op.Closes : Op → Prop
  | .fclose | .pclose _ => True
  | _ => False

theorem ungetc_spec {child : Bool} {c : ℤ} (h : Has s f fd st) (hsafe : Safe st child (.ungetc c)) :
    .byte (ungetc s f c).1 = (does st (.ungetc c)).1 ∧
      Becomes s (ungetc s f c).2 f fd (does st (.ungetc c)).2 := by
  rw [ungetc, does, h.fileFd]
  by_cases hc : c < 0
  · rw [if_pos (.inr hc), if_pos hc]
    exact ⟨rfl, h.becomes_self⟩
  · have hroom : st.unget (UInt8.ofNat c.toNat) =
        some { st with pushed := some (UInt8.ofNat c.toNat), eof := false } := by
      rw [Stream.unget, hsafe.resolve_left hc]
      rfl
    rw [if_neg (not_or.mpr ⟨Option.some_ne_none fd, hc⟩), if_neg hc, hroom]
    exact ⟨rfl, becomes_setFile h rfl rfl rfl rfl⟩

theorem fgets_spec (n : ℤ) (h : Has s f fd st) :
    .line (fgets s f n).1 = (does st (.fgets n)).1 ∧
      Becomes s (fgets s f n).2 f fd (does st (.fgets n)).2 := by
  rw [fgets, does, h.fileFd]
  by_cases hn : n ≤ 0
  · rw [if_pos (.inl hn), if_pos hn]
    exact ⟨rfl, h.becomes_self⟩
  · obtain ⟨hline, hbecomes⟩ := getsLoop_spec h (n - 1).toNat
    rw [if_neg (not_or.mpr ⟨hn, Option.some_ne_none fd⟩), if_neg hn]
    dsimp only
    rw [hline]
    split_ifs
    · exact ⟨rfl, hbecomes⟩
    · exact ⟨rfl, hbecomes⟩

theorem fread_spec {child : Bool} {size nmemb : ℕ} (h : Has s f fd st)
    (hsafe : Safe st child (.fread size nmemb)) :
    .items (fread s f size nmemb).1.1 (fread s f size nmemb).1.2 =
        (does st (.fread size nmemb)).1 ∧
      Becomes s (fread s f size nmemb).2 f fd (does st (.fread size nmemb)).2 := by
  rw [fread, does, h.fileFd]
  dsimp only
  by_cases hsize : size = 0
  · rw [if_pos hsize, if_pos hsize]
    exact ⟨rfl, h.becomes_self⟩
  · obtain ⟨hwant, hthere⟩ := hsafe.resolve_left hsize
    rw [if_neg hsize, if_neg hsize, Nat.mod_eq_of_lt hwant]
    cases hn : size * nmemb with
    | zero =>
      rw [if_pos rfl, Stream.take_zero]
      refine ⟨?_, h.becomes_self⟩
      rw [List.length_nil, Nat.zero_div]
    | succ n =>
      rw [hn] at hthere
      obtain ⟨hbyte, hbecomes⟩ := pullByte_spec h
      have hnext := Stream.remaining_take st 1
      have hgone : (st.take 1).2.pushed = none := rfl
      have hahead : (st.take 1).2.remaining = (st.take 1).2.desc.ahead := by
        rw [Stream.remaining, hgone]
        rfl
      have heof : (st.take 1).2.eof = (st.eof || decide (st.remaining.length < 1)) := rfl
      have hmore : n ≤ (st.take 1).2.remaining.length ∨ (st.take 1).2.eof = true := by
        rw [hnext, heof, List.length_drop]
        rcases hthere with hlen | hnone | heof
        · exact .inl (by omega)
        · rw [hnone]
          exact .inr (Bool.or_true _)
        · rw [heof]
          exact .inr (Bool.true_or _)
      rw [if_neg (Nat.succ_ne_zero n), Nat.add_comm n 1, Stream.take_add,
        Stream.take_of_pushed hgone hmore, ← Prod.mk.eta (p := pullByte s f), hbyte,
        Stream.fst_take]
      cases hrem : st.remaining with
      | nil =>
        have hend : (st.take 1).2.desc.ahead = [] := by rw [← hahead, hnext, hrem, List.drop_nil]
        rw [hend, List.take_nil, List.take_nil, List.length_nil, Nat.min_zero, Desc.advance_zero]
        refine ⟨?_, hbecomes⟩
        dsimp only [List.head?_nil]
        rw [List.append_nil, List.length_nil, Nat.zero_div]
      | cons c bs =>
        obtain ⟨hbulk, hlast⟩ := readLoop_spec (hbecomes.has h) n
        rw [hgone] at hlast
        dsimp only [List.take_succ_cons, List.head?_cons]
        rw [Nat.add_sub_cancel_left, hbulk]
        exact ⟨rfl, hbecomes.trans hlast⟩

theorem tell_spec (h : Has s f fd st) :
    (tell s f).1 = (if st.desc.seekable then (st.desc.offset : ℤ) else -1) ∧
      Becomes s (tell s f).2 f fd st := by
  rw [tell, h.fileFd]
  dsimp only
  rw [hostSeek_eq h, Desc.lseek_here]
  split_ifs
  · exact ⟨rfl, becomes_set h st.desc⟩
  · exact ⟨rfl, h.becomes_self⟩

theorem position_eq (hpushed : st.pushed = none) : st.position = st.desc.offset := by
  rw [Stream.position, hpushed]
  exact Int.sub_zero _

theorem positionOr_mod {failure top : ℤ} (hfail : (-1) % top = failure)
    (hsafe : st.desc.seekable = true → st.pushed = none ∧ (st.desc.offset : ℤ) < top) :
    (if st.desc.seekable then (st.desc.offset : ℤ) else -1) % top = positionOr st failure := by
  rw [positionOr]
  split_ifs with hseek
  · obtain ⟨hpushed, hlt⟩ := hsafe hseek
    rw [position_eq hpushed, Int.emod_eq_of_lt (Int.natCast_nonneg _) hlt]
  · exact hfail

theorem seek_eq {off : ℤ} {origin : ℕ} (hsafe : origin = 1 → st.pushed = none) :
    st.seek off origin = (st.desc.lseek off origin).map fun d => ⟨d, none, false⟩ := by
  have hback : (if origin = 1 then (st.pushed.toList.length : ℤ) else 0) = 0 := by
    split_ifs with hcur
    · rw [hsafe hcur]
      rfl
    · rfl
  rw [Stream.seek, hback, Int.sub_zero]

theorem fseek_spec {child : Bool} {off : ℤ} {origin : ℕ} (h : Has s f fd st)
    (hsafe : Safe st child (.fseek off origin)) :
    .code (fseek s f off origin).1 = (does st (.fseek off origin)).1 ∧
      Becomes s (fseek s f off origin).2 f fd (does st (.fseek off origin)).2 := by
  have hset : Becomes s (setFile s f { s.files f with ungot := none, eof := false }) f fd
      ⟨st.desc, none, false⟩ := becomes_setFile h rfl rfl rfl rfl
  rw [fseek, h.fileFd, does, sought, seek_eq hsafe.1]
  dsimp only
  rw [hostSeek_eq (hset.has h)]
  dsimp only
  cases hseek : st.desc.lseek off origin with
  | none =>
    obtain ⟨hpushed, heof⟩ := hsafe.2 hseek
    have hst : (⟨st.desc, none, false⟩ : Stream UInt8) = st := by rw [← hpushed, ← heof]
    rw [hst] at hset
    exact ⟨rfl, hset⟩
  | some d =>
    refine ⟨?_, hset.trans (becomes_set (hset.has h) d)⟩
    dsimp only [Option.map_some]
    rw [if_neg (Int.not_lt.mpr (Int.natCast_nonneg _))]

theorem rewind_spec {child : Bool} (h : Has s f fd st) (hsafe : Safe st child .rewind) :
    Becomes s (rewind s f) f fd (does st .rewind).2 := by
  have hset : Becomes s (setFile s f { s.files f with ungot := none, eof := false, err := false })
      f fd ⟨st.desc, none, false⟩ := becomes_setFile h rfl rfl rfl rfl
  rw [rewind, h.fileFd, does, sought, seek_eq (fun hcur => absurd hcur (by decide))]
  dsimp only
  rw [hostSeek_eq (hset.has h)]
  dsimp only
  cases hseek : st.desc.lseek 0 0 with
  | none =>
    obtain ⟨hpushed, heof⟩ := hsafe (Desc.seekable_of_lseek_start hseek)
    have hst : (⟨st.desc, none, false⟩ : Stream UInt8) = st := by rw [← hpushed, ← heof]
    rw [hst] at hset
    exact hset
  | some d => exact hset.trans (becomes_set (hset.has h) d)

theorem fsetpos_spec {child : Bool} {pos : Option ℤ} (h : Has s f fd st)
    (hsafe : Safe st child (.fsetpos pos)) :
    .code (fsetpos s f pos).1 = (does st (.fsetpos pos)).1 ∧
      Becomes s (fsetpos s f pos).2 f fd (does st (.fsetpos pos)).2 := by
  cases pos with
  | none =>
    unfold fsetpos
    rw [h.fileFd]
    exact ⟨rfl, h.becomes_self⟩
  | some p =>
    unfold fsetpos
    rw [h.fileFd, does]
    dsimp only
    rw [sought, seek_eq (fun hcur => absurd hcur (by decide)), hostSeek_eq h]
    cases hseek : st.desc.lseek p 0 with
    | none => exact ⟨rfl, h.becomes_self⟩
    | some d =>
      obtain ⟨hpushed, heof⟩ := hsafe p rfl (by rw [hseek]; exact Option.some_ne_none d)
      have hset := becomes_set h d
      rw [hpushed, heof] at hset
      refine ⟨?_, hset⟩
      dsimp only [Option.map_some]
      rw [if_neg (Int.not_lt.mpr (Int.natCast_nonneg _))]

theorem perform_spec {child : Bool} {op : Op} (h : Has s f fd st) (hop : ¬op.Closes)
    (hsafe : Safe st child op) :
    (perform s f op).1 = (does st op).1 ∧ Becomes s (perform s f op).2 f fd (does st op).2 := by
  have hbyte := pullByte_spec h
  obtain ⟨htell, hsame⟩ := tell_spec h
  cases op with
  | getc => exact ⟨congrArg Result.byte hbyte.1, hbyte.2⟩
  | fgetc => exact ⟨congrArg Result.byte hbyte.1, hbyte.2⟩
  | filbuf =>
    have hfil := filbuf_spec h
    exact ⟨congrArg Result.byte hfil.1, hfil.2⟩
  | ungetc c => exact ungetc_spec h hsafe
  | fgets n => exact fgets_spec n h
  | fread size nmemb => exact fread_spec h hsafe
  | fseek off origin => exact fseek_spec h hsafe
  | ftell =>
    refine ⟨congrArg Result.pos ?_, hsame⟩
    rw [ftell, htell]
    exact positionOr_mod rfl fun hseek => by
      obtain ⟨hpushed, hlt⟩ := hsafe hseek
      exact ⟨hpushed, by exact_mod_cast hlt⟩
  | ftelli64 =>
    refine ⟨congrArg Result.pos ?_, hsame⟩
    rw [ftelli64, htell]
    exact positionOr_mod rfl fun hseek => by
      obtain ⟨hpushed, hlt⟩ := hsafe hseek
      exact ⟨hpushed, by exact_mod_cast hlt⟩
  | fgetpos dest =>
    rw [perform]
    unfold fgetpos
    rw [h.fileFd]
    cases dest with
    | false => exact ⟨rfl, h.becomes_self⟩
    | true =>
      rw [tell, h.fileFd] at htell hsame
      refine ⟨congrArg Result.pos ?_, hsame⟩
      refine htell.trans ?_
      rw [positionOr]
      split_ifs with hseek
      · rw [position_eq (hsafe rfl hseek)]
      · rfl
  | fsetpos pos => exact fsetpos_spec h hsafe
  | rewind => exact ⟨rfl, rewind_spec h hsafe⟩
  | feof =>
    refine ⟨congrArg Result.flag ?_, h.becomes_self⟩
    rw [feof, h.fileFd]
    exact h.eof
  | clearerr =>
    refine ⟨rfl, ?_⟩
    rw [perform, clearerr, h.fileFd]
    exact becomes_setFile h rfl rfl h.pushed rfl
  | fclose => exact absurd trivial hop
  | pclose exit => exact absurd trivial hop

end

end Aret.Stdio
