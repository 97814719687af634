/-
What the synthetic stdio is for: each `FILE` is one stream of a C library.
-/
import Aret.Stdio

namespace Aret.Stdio

open CStream

def File.isDyn : File → Bool
  | .dyn _ => true
  | _ => false

structure Streams where
  stream : File → Option (Stream UInt8)
  child : File → Bool
  loose : ℕ → Option (Desc UInt8)

def positionOr (st : Stream UInt8) (failure : ℤ) : ℤ :=
  if st.desc.seekable then st.position else failure

def sought (st : Stream UInt8) (off : ℤ) (origin : ℕ) : Result × Stream UInt8 :=
  match st.seek off origin with
  | some st' => (.code 0, st')
  | none => (.code (-1), st)

def does (st : Stream UInt8) : Op → Result × Stream UInt8
  | .getc | .fgetc | .filbuf => (.byte (st.take 1).1.head?, (st.take 1).2)
  | .ungetc c =>
    if c < 0 then (.byte none, st)
    else
      match st.unget (UInt8.ofNat c.toNat) with
      | some st' => (.byte (some (UInt8.ofNat c.toNat)), st')
      | none => (.byte none, st)
  | .fgets n =>
    if n ≤ 0 then (.line none, st)
    else
      let (bs, st') := st.gets (· = 0x0A) (n - 1).toNat
      (.line (if bs = [] then none else some bs), st')
  | .fread size nmemb =>
    if size = 0 then (.items [] 0, st)
    else
      let (bs, st') := st.take (size * nmemb)
      (.items bs (bs.length / size), st')
  | .fseek off origin => sought st off origin
  | .ftell => (.pos (positionOr st (2 ^ 32 - 1)), st)
  | .ftelli64 => (.pos (positionOr st (2 ^ 64 - 1)), st)
  | .fgetpos dest => (if dest then .pos (positionOr st (-1)) else .code (-1), st)
  | .fsetpos pos =>
    match pos with
    | some p => sought st p 0
    | none => (.code (-1), st)
  | .rewind => (.code 0, (sought st 0 0).2)
  | .feof => (.flag st.eof, st)
  | .clearerr => (.code 0, { st with eof := false })
  | .fclose | .pclose _ => (.code 0, st)

def noStream : Op → Result
  | .getc | .fgetc | .filbuf | .ungetc _ => .byte none
  | .fgets _ => .line none
  | .fread _ _ => .items [] 0
  | .fseek _ _ | .fgetpos _ | .fsetpos _ | .pclose _ => .code (-1)
  | .ftell => .pos (2 ^ 32 - 1)
  | .ftelli64 => .pos (2 ^ 64 - 1)
  | .rewind | .clearerr | .fclose => .code 0
  | .feof => .flag true

namespace Streams

def put (a : Streams) (f : File) (st : Option (Stream UInt8)) : Streams :=
  { a with stream := Function.update a.stream f st }

def close (a : Streams) (f : File) : Streams :=
  { a.put f none with child := Function.update a.child f false }

/-- A call on a `FILE`.  The standard streams are not closed, and `pclose` closes only what `popen`
opened. -/
def on (a : Streams) (f : File) (op : Op) : Result × Streams :=
  match a.stream f with
  | none => (noStream op, a)
  | some st =>
    match op with
    | .fclose => (.code 0, if f.isDyn then a.close f else a)
    | .pclose exit => if a.child f then (.code exit, a.close f) else (.code (-1), a)
    | op => ((does st op).1, a.put f (some (does st op).2))

def Full (a : Streams) : Prop := ∀ i, (a.stream (.dyn i)).isSome

end Streams

def Opens (a : Streams) (r : Result) (a' : Streams) (opened : Option (Desc UInt8)) (child : Bool) :
    Prop :=
  (r = .file none ∧ a' = a ∧ (opened = none ∨ a.Full)) ∨
    ∃ f d, opened = some d ∧ r = .file (some f) ∧ a.stream f = none ∧
      a' = { a.put f (some ⟨d, none, false⟩) with child := Function.update a.child f child }

def Wraps (a : Streams) (r : Result) (a' : Streams) (fd : ℤ) : Prop :=
  (r = .file none ∧ a' = a ∧ (fd < 0 ∨ a.Full)) ∨
    ∃ f d, a.loose fd.toNat = some d ∧ r = .file (some f) ∧ a.stream f = none ∧
      a' = { a.put f (some ⟨d, none, false⟩) with loose := Function.update a.loose fd.toNat none }

def Follows (a : Streams) (r : Result) (a' : Streams) : Call → Prop
  | .fopen opened => Opens a r a' opened false
  | .popen opened => Opens a r a' opened true
  | .fdopen fd => Wraps a r a' fd
  | .getchar => (r, a') = a.on (.iob 0) .getc
  | .on f op => (r, a') = a.on f op

/-! ### The streams of a state -/

/-- A `FILE` that is in use. -/
def IsOpen (s : State) : File → Prop
  | .iob _ => True
  | .dyn i => s.used i = true
  | .other => False

instance (s : State) (f : File) : Decidable (IsOpen s f) :=
  match f with
  | .iob _ => .isTrue trivial
  | .dyn i => inferInstanceAs (Decidable (s.used i = true))
  | .other => .isFalse id

def Owned (s : State) (fd : ℕ) : Prop :=
  fd < 3 ∨ ∃ i, s.used i = true ∧ (s.files (.dyn i)).file = fd

instance (s : State) (fd : ℕ) : Decidable (Owned s fd) := inferInstanceAs (Decidable (_ ∨ _))

/-- The stream that a `FILE` over a descriptor is. -/
def streamOf (r : FileRec) (d : Desc UInt8) : Stream UInt8 := ⟨d, r.ungot, r.eof⟩

def abs (s : State) : Streams where
  stream f :=
    if IsOpen s f then ((fileFd s f).bind s.fds.get).map (streamOf (s.files f)) else none
  child f := (s.popenTab.find fun e => e.1 = f).isSome
  loose fd := if Owned s fd then none else s.fds.get fd

def Lawful (s : State) (c : Call) : Prop := Follows (abs s) (step s c).1 (abs (next s c)) c

/-! ### What is delivered -/

def Result.bytes : Result → List UInt8
  | .byte c => c.toList
  | .line bs => bs.getD []
  | .items bs _ => bs
  | _ => []

def Call.target : Call → Option File
  | .getchar => some (.iob 0)
  | .on f _ => some f
  | _ => none

def Op.Reads : Op → Prop
  | .getc | .fgetc | .filbuf | .fgets _ | .fread _ _ => True
  | _ => False

def Call.Reads : Call → Prop
  | .getchar => True
  | .on _ op => op.Reads
  | _ => False

def deliveredTo (f : File) : State → List Call → List UInt8
  | _, [] => []
  | s, c :: cs =>
    (if c.target = some f then (step s c).1.bytes else []) ++ deliveredTo f (next s c) cs

/-! ### Facts about streams -/

theorem bytes_append_remaining {st : Stream UInt8} {op : Op} (hop : op.Reads) :
    (does st op).1.bytes ++ (does st op).2.remaining = st.remaining := by
  have hone : (st.take 1).1.head?.toList ++ (st.take 1).2.remaining = st.remaining := by
    have htake := st.take_append_remaining 1
    rw [Stream.fst_take] at htake ⊢
    cases hrem : st.remaining with
    | nil =>
      rw [hrem] at htake
      exact htake
    | cons c bs =>
      rw [hrem] at htake
      exact htake
  cases op with
  | getc => exact hone
  | fgetc => exact hone
  | filbuf => exact hone
  | fgets n =>
    rw [does]
    split_ifs with hn
    · rfl
    · have htake := st.take_append_remaining
        (Stream.lineLength (· = 0x0A) (n - 1).toNat st.remaining)
      dsimp only [Result.bytes]
      rw [Stream.gets]
      split_ifs with hnone
      · rw [hnone] at htake
        exact htake
      · exact htake
  | fread size nmemb =>
    rw [does]
    split_ifs with hsize
    · rfl
    · exact st.take_append_remaining (size * nmemb)
  | _ => exact hop.elim

variable {a a' : Streams} {r : Result} {c : Call} {f g : File} {st : Stream UInt8}

theorem Streams.on_reads (hf : a.stream f = some st) {op : Op} (hop : op.Reads) :
    a.on f op = ((does st op).1, a.put f (some (does st op).2)) := by
  unfold Streams.on
  rw [hf]
  cases op <;> first | rfl | exact False.elim hop

theorem Follows.reads (h : Follows a r a' c) (hc : c.Reads) (htarget : c.target = some f)
    (hf : a.stream f = some st) :
    ∃ st', a'.stream f = some st' ∧ r.bytes ++ st'.remaining = st.remaining := by
  have hmain : ∀ op : Op, op.Reads → (r, a') = a.on f op →
      ∃ st', a'.stream f = some st' ∧ r.bytes ++ st'.remaining = st.remaining := by
    intro op hop heq
    rw [Streams.on_reads hf hop] at heq
    obtain ⟨rfl, rfl⟩ := Prod.mk.inj heq
    exact ⟨_, Function.update_self .., bytes_append_remaining hop⟩
  cases c with
  | getchar =>
    obtain rfl := Option.some.inj htarget
    exact hmain .getc trivial h
  | on g op =>
    obtain rfl := Option.some.inj htarget
    exact hmain op hc h
  | _ => exact nomatch htarget

theorem Streams.on_other (h : f ≠ g) (op : Op) : (a.on g op).2.stream f = a.stream f := by
  have hput : ∀ st, (a.put g st).stream f = a.stream f := fun st => Function.update_of_ne h ..
  unfold Streams.on
  split
  · rfl
  · split
    · dsimp only
      split_ifs
      · exact hput none
      · rfl
    · split_ifs
      · exact hput none
      · rfl
    · exact hput _

theorem Follows.other (h : Follows a r a' c) (htarget : c.target ≠ some f)
    (hf : a.stream f = some st) : a'.stream f = some st := by
  have hnew : ∀ {g : File}, a.stream g = none → f ≠ g := by
    rintro g hg rfl
    rw [hf] at hg
    cases hg
  cases c with
  | getchar =>
    have ha : a' = (a.on (.iob 0) .getc).2 := congrArg Prod.snd h
    rw [ha, Streams.on_other (fun heq => htarget (congrArg some heq.symm)), hf]
  | on g op =>
    have ha : a' = (a.on g op).2 := congrArg Prod.snd h
    rw [ha, Streams.on_other (fun heq => htarget (congrArg some heq.symm)), hf]
  | fopen opened =>
    obtain ⟨-, rfl, -⟩ | ⟨g, d, -, -, hg, rfl⟩ := h
    · exact hf
    · exact (Function.update_of_ne (hnew hg) ..).trans hf
  | popen opened =>
    obtain ⟨-, rfl, -⟩ | ⟨g, d, -, -, hg, rfl⟩ := h
    · exact hf
    · exact (Function.update_of_ne (hnew hg) ..).trans hf
  | fdopen fd =>
    obtain ⟨-, rfl, -⟩ | ⟨g, d, -, -, hg, rfl⟩ := h
    · exact hf
    · exact (Function.update_of_ne (hnew hg) ..).trans hf

end Aret.Stdio
