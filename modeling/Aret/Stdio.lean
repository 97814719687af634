/-
The streams of the synthetic stdio: `FILE`s over descriptors of the host.

Design notes: the host is what `open`, `popen` and the exit status of a child are; an
event carries them.  Of the flags of a `FILE` the model has `_IOEOF` and `_IOERR`, and
its pushback `(char + 1)`, with 0 for none, is an option.
-/
import Aret.CStream
import Aret.Slots

namespace Aret.Stdio

open CStream

/-- A `FILE *`: in `aret_iob`, in `aret_dynfile`, or neither. -/
inductive File
  | iob (i : Fin 3)
  | dyn (i : Fin 64)
  | other
deriving DecidableEq

scoped instance neZeroIob : NeZero 3 := ⟨three_ne_zero⟩

/-- `_cnt`, `_flag`, `_file` and the pushback of a `FILE`. -/
structure FileRec where
  cnt : ℤ
  eof : Bool
  err : Bool
  file : ℕ
  ungot : Option UInt8

structure State where
  fds : Slots (Desc UInt8)
  files : File → FileRec
  used : Fin 64 → Bool
  popenTab : Slots (File × ℕ)

/-- What a call on a `FILE` is. `fgetpos` may be given no place, and `fsetpos` no position. -/
inductive Op
  | getc
  | fgetc
  | filbuf
  | ungetc (c : ℤ)
  | fgets (n : ℤ)
  | fread (size nmemb : ℕ)
  | fseek (off : ℤ) (origin : ℕ)
  | ftell
  | ftelli64
  | fgetpos (dest : Bool)
  | fsetpos (pos : Option ℤ)
  | rewind
  | feof
  | clearerr
  | fclose
  | pclose (exit : ℤ)

/-- A call, with the descriptor that the host opens for it. -/
inductive Call
  | fopen (opened : Option (Desc UInt8))
  | fdopen (fd : ℤ)
  | popen (opened : Option (Desc UInt8))
  | getchar
  | on (f : File) (op : Op)

inductive Result
  | file (f : Option File)
  | byte (c : Option UInt8)
  | line (bs : Option (List UInt8))
  | items (bs : List UInt8) (count : ℕ)
  | pos (p : ℤ)
  | flag (b : Bool)
  | code (n : ℤ)
deriving DecidableEq

def setFile (s : State) (f : File) (r : FileRec) : State :=
  { s with files := Function.update s.files f r }

/-! ### The host -/

def hostRead (s : State) (fd n : ℕ) : List UInt8 × State :=
  match s.fds.get fd with
  | none => ([], s)
  | some d => ((d.read n).1, { s with fds := s.fds.set fd (some (d.read n).2) })

def hostSeek (s : State) (fd : ℕ) (off : ℤ) (origin : ℕ) : ℤ × State :=
  match (s.fds.get fd).bind fun d => d.lseek off origin with
  | none => (-1, s)
  | some d => (d.offset, { s with fds := s.fds.set fd (some d) })

def hostClose (s : State) (fd : ℕ) : State := { s with fds := s.fds.set fd none }

/-! ### The pool -/

/-- `file_fd`; `none` is -1. -/
def fileFd (s : State) : File → Option ℕ
  | .iob i => some i
  | .dyn i => some (s.files (.dyn i)).file
  | .other => none

def allocDynfile (s : State) (fd : ℕ) : Option File × State :=
  match (List.finRange 64).find? fun i => !s.used i with
  | none => (none, s)
  | some i =>
    (some (.dyn i),
      setFile { s with used := Function.update s.used i true } (.dyn i) ⟨0, false, false, fd, none⟩)

def freeDynfile (s : State) : File → State
  | .dyn i => { s with used := Function.update s.used i false }
  | _ => s

/-! ### Opening and closing -/

/-- `aret_fopen`, and the part of `aret_popen` before its side table. -/
def openFile (s : State) (opened : Option (Desc UInt8)) : Option File × State :=
  match opened with
  | none => (none, s)
  | some d =>
    let fd := s.fds.free
    match allocDynfile { s with fds := s.fds.add d } fd with
    | (none, s') => (none, hostClose s' fd)
    | (some f, s') => (some f, s')

def fopen (s : State) (opened : Option (Desc UInt8)) : Option File × State := openFile s opened

def fdopen (s : State) (fd : ℤ) : Option File × State :=
  if fd < 0 then (none, s) else allocDynfile s fd.toNat

def popen (s : State) (opened : Option (Desc UInt8)) : Option File × State :=
  match openFile s opened with
  | (none, s') => (none, s')
  | (some f, s') =>
    -- in a full table the pipe is not remembered
    if s'.popenTab.free < s'.popenTab.length then
      (some f, { s' with popenTab := s'.popenTab.set s'.popenTab.free (some (f, s.fds.free)) })
    else (some f, s')

def fclose (s : State) (f : File) : State :=
  match fileFd s f with
  | some fd => freeDynfile (if 2 < fd then hostClose s fd else s) f
  | none => freeDynfile s f

/-- `exit` is what the host's `pclose` gives. -/
def pclose (s : State) (f : File) (exit : ℤ) : ℤ × State :=
  match s.popenTab.find fun e => e.1 = f with
  | none => (-1, s)
  | some k =>
    match s.popenTab.get k with
    | none => (-1, s)
    | some e =>
      (exit, hostClose (freeDynfile { s with popenTab := s.popenTab.set k none } f) e.2)

/-! ### Reading -/

def pullByte (s : State) (f : File) : Option UInt8 × State :=
  match fileFd s f with
  | none => (none, s)
  | some fd =>
    match (s.files f).ungot with
    | some c => (some c, setFile s f { s.files f with ungot := none })
    | none =>
      match hostRead s fd 1 with
      | ([], s') => (none, setFile s' f { s'.files f with eof := true })
      | (b :: _, s') => (some b, s')

def getc (s : State) (f : File) : Option UInt8 × State := pullByte s f

def fgetc (s : State) (f : File) : Option UInt8 × State := getc s f

/-- `getchar` reads descriptor 0. -/
def getchar (s : State) : Option UInt8 × State :=
  match hostRead s 0 1 with
  | (b :: _, s') => (some b, s')
  | ([], s') => (none, s')

def filbuf (s : State) (f : File) : Option UInt8 × State :=
  let (c, s') := pullByte s f
  if (fileFd s' f).isSome then (c, setFile s' f { s'.files f with cnt := 0 }) else (c, s')

/-- The loop of `fgets`, for at most `n` bytes. -/
def getsLoop (s : State) (f : File) : ℕ → List UInt8 × State
  | 0 => ([], s)
  | n + 1 =>
    match pullByte s f with
    | (none, s') => ([], s')
    | (some c, s') =>
      if c = 0x0A then ([c], s') else (c :: (getsLoop s' f n).1, (getsLoop s' f n).2)

def fgets (s : State) (f : File) (n : ℤ) : Option (List UInt8) × State :=
  if n ≤ 0 ∨ fileFd s f = none then (none, s)
  else
    let (bs, s') := getsLoop s f (n - 1).toNat
    if bs = [] then (none, s') else (some bs, s')

/-- The loop of `fread`, which reads the descriptor. -/
def readLoop (s : State) (fd want : ℕ) : List UInt8 × State :=
  if _hwant : want = 0 then ([], s)
  else if _hbs : (hostRead s fd want).1 = [] then ([], (hostRead s fd want).2)
  else
    let rest := readLoop (hostRead s fd want).2 fd (want - (hostRead s fd want).1.length)
    ((hostRead s fd want).1 ++ rest.1, rest.2)
termination_by want
decreasing_by
  have hpos := List.length_pos_iff.mpr _hbs
  omega

/-- The bytes and the number of whole items.  `size_t` has 32 bits. -/
def fread (s : State) (f : File) (size nmemb : ℕ) : (List UInt8 × ℕ) × State :=
  match fileFd s f with
  | none => (([], 0), s)
  | some fd =>
    if size = 0 then (([], 0), s)
    else
      let want := size * nmemb % 2 ^ 32
      if want = 0 then (([], 0), s)
      else
        match pullByte s f with
        | (none, s') => (([], 0), s')
        | (some c, s') =>
          let (bs, s'') := readLoop s' fd (want - 1)
          ((c :: bs, (bs.length + 1) / size), s'')

def ungetc (s : State) (f : File) (c : ℤ) : Option UInt8 × State :=
  if fileFd s f = none ∨ c < 0 then (none, s)
  else
    let b := UInt8.ofNat c.toNat
    (some b, setFile s f { s.files f with ungot := some b, eof := false })

/-! ### Position and state -/

def fseek (s : State) (f : File) (off : ℤ) (origin : ℕ) : ℤ × State :=
  match fileFd s f with
  | none => (-1, s)
  | some fd =>
    let (r, s') :=
      hostSeek (setFile s f { s.files f with ungot := none, eof := false }) fd off origin
    (if r < 0 then -1 else 0, s')

def rewind (s : State) (f : File) : State :=
  match fileFd s f with
  | none => s
  | some fd =>
    (hostSeek (setFile s f { s.files f with ungot := none, eof := false, err := false }) fd 0 0).2

def tell (s : State) (f : File) : ℤ × State :=
  match fileFd s f with
  | none => (-1, s)
  | some fd => hostSeek s fd 0 1

def ftell (s : State) (f : File) : ℤ × State := ((tell s f).1 % 2 ^ 32, (tell s f).2)

def ftelli64 (s : State) (f : File) : ℤ × State := ((tell s f).1 % 2 ^ 64, (tell s f).2)

def fgetpos (s : State) (f : File) (dest : Bool) : Result × State :=
  match fileFd s f, dest with
  | some fd, true => (.pos (hostSeek s fd 0 1).1, (hostSeek s fd 0 1).2)
  | _, _ => (.code (-1), s)

def fsetpos (s : State) (f : File) (pos : Option ℤ) : ℤ × State :=
  match fileFd s f, pos with
  | some fd, some p =>
    let (r, s') := hostSeek s fd p 0
    (if r < 0 then -1 else 0, s')
  | _, _ => (-1, s)

def feof (s : State) (f : File) : Bool :=
  match fileFd s f with
  | none => true
  | some _ => (s.files f).eof

def clearerr (s : State) (f : File) : State :=
  match fileFd s f with
  | none => s
  | some _ => setFile s f { s.files f with eof := false, err := false }

/-! ### Calls -/

def perform (s : State) (f : File) : Op → Result × State
  | .getc => (.byte (getc s f).1, (getc s f).2)
  | .fgetc => (.byte (fgetc s f).1, (fgetc s f).2)
  | .filbuf => (.byte (filbuf s f).1, (filbuf s f).2)
  | .ungetc c => (.byte (ungetc s f c).1, (ungetc s f c).2)
  | .fgets n => (.line (fgets s f n).1, (fgets s f n).2)
  | .fread size nmemb =>
    (.items (fread s f size nmemb).1.1 (fread s f size nmemb).1.2, (fread s f size nmemb).2)
  | .fseek off origin => (.code (fseek s f off origin).1, (fseek s f off origin).2)
  | .ftell => (.pos (ftell s f).1, (ftell s f).2)
  | .ftelli64 => (.pos (ftelli64 s f).1, (ftelli64 s f).2)
  | .fgetpos dest => fgetpos s f dest
  | .fsetpos pos => (.code (fsetpos s f pos).1, (fsetpos s f pos).2)
  | .rewind => (.code 0, rewind s f)
  | .feof => (.flag (feof s f), s)
  | .clearerr => (.code 0, clearerr s f)
  | .fclose => (.code 0, fclose s f)
  | .pclose exit => (.code (pclose s f exit).1, (pclose s f exit).2)

def step (s : State) : Call → Result × State
  | .fopen opened => (.file (fopen s opened).1, (fopen s opened).2)
  | .fdopen fd => (.file (fdopen s fd).1, (fdopen s fd).2)
  | .popen opened => (.file (popen s opened).1, (popen s opened).2)
  | .getchar => (.byte (getchar s).1, (getchar s).2)
  | .on f op => perform s f op

def next (s : State) (c : Call) : State := (step s c).2

def npopen : ℕ := 32

def start (fds : Slots (Desc UInt8)) : State :=
  ⟨fds, fun _ => ⟨0, false, false, 0, none⟩, fun _ => false, List.replicate npopen none⟩

end Aret.Stdio
