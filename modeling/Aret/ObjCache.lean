/-
The object cache of the compile step, and the runs it takes part in.

`begin`, `depDigest`, `lookup` and `store` are the cache's four operations on a
file system (a map from paths to contents).  A `Compiler` reads the source and
then looks files up one after the other (a `ReadTree`), absent ones included; it
leaves an object and a dependency list behind.  A `Machine` runs any number of
compile jobs over one file system, in any order of steps, with the files edited
in between.

Design notes: the digest function is a parameter; digests are compared as bytes
(the source prints them in hexadecimal).  The cache directory is a pair of maps
of its own, as nothing but the cache writes there.
-/
import Aret.PathBytes
import Aret.ReadTree

namespace Aret

abbrev Digest := {d : Bytes // d.length = 32}

abbrev Files := Path → Option Bytes

/-- What identifies one compile: the arguments that go into the key, the source,
the output directory and the object to write. -/
structure Job where
  args : List Bytes
  src : Path
  outDir : Path
  obj : Path
  deriving DecidableEq

/-- What a lookup needs, and what a later store records under. -/
structure Pending where
  key0 : Digest
  depfile : Path

/-- The files of the cache directory: `<key>.dep` and `<key>-<deps>.o`. -/
structure CacheDir where
  manifest : Digest → Option Bytes
  object : Digest → Digest → Option Bytes

/-! ### Keys -/

/-- An argument as it enters the key: one under the output directory, or equal to
the source, is replaced by a marker. -/
def keyArg (src outDir : Path) (a : Bytes) : Bytes :=
  if outDir <+: components a ∨ components a = src then
    ascii ['<', 'o', 'u', 't', 'd', 'i', 'r', '>']
  else a

def keyInput (ccId : Bytes) (args : List Bytes) (src outDir : Path) (srcBytes : Bytes) : Bytes :=
  ascii ['a', 'r', 'e', 't', '-', 'o', 'b', 'j', 'c', 'a', 'c', 'h', 'e', '-', 'v', '1'] ++ [0]
    ++ ccId ++ [0] ++ ascii ['a', 'r', 'g', 's'] ++ [0]
    ++ args.flatMap (fun a => keyArg src outDir a ++ [0])
    ++ [0] ++ ascii ['s', 'r', 'c'] ++ [0] ++ srcBytes

/-- The bytes a dependency digest is taken of: every listed line with the digest
of the file it names. -/
def depInput (sha : Bytes → Digest) (pairs : List (Bytes × Bytes)) : Bytes :=
  ascii ['d', 'e', 'p', 's', '-', 'v', '1'] ++ [0]
    ++ pairs.flatMap fun e => e.1 ++ [0] ++ (sha e.2).val

/-! ### Dependency lists -/

/-- Dependencies out of a `-MD` file. -/
def parseDepfile (text : Bytes) : List Bytes :=
  let body := if (58 : UInt8) ∈ text then (text.dropWhile (· ≠ 58)).tail else text
  (splitWhitespace
    (replaceFrom [92, 13, 10] [32] 0 (replaceFrom [92, 10] [32] 0 body))).filter (· ≠ [92])

/-- The manifest line of a dependency: relative when it is inside the output
directory. -/
def depLine (outDir : Path) (d : Bytes) : Bytes :=
  match stripPrefix outDir (components d) with
  | some rel => ascii ['o'] ++ [9] ++ display rel
  | none => ascii ['a'] ++ [9] ++ d

/-- The file a manifest line names: the directory it is relative to, and the
path from there. -/
def splitLine (outDir : Path) (line : Bytes) : Option (Path × Bytes) :=
  if (9 : UInt8) ∈ line then
    let kind := line.takeWhile (· ≠ 9)
    let rel := (line.dropWhile (· ≠ 9)).tail
    if kind = ascii ['o'] then some (outDir, rel)
    else if kind = ascii ['a'] then some ([], rel)
    else none
  else none

/-- `fs::read`: a path with a NUL cannot be opened. -/
def readFrom (fs : Files) (base : Path) (rel : Bytes) : Option Bytes :=
  if (0 : UInt8) ∈ rel then none else fs (joinPath base (components rel))

def depPair (fs : Files) (outDir : Path) (line : Bytes) : Option (Bytes × Bytes) := do
  let (base, rel) ← splitLine outDir line
  let content ← readFrom fs base rel
  return (line, content)

/-- The lines recorded for a key with the contents of their files, or `none` when
there is no manifest or a listed file cannot be read. -/
def depPairs (cache : CacheDir) (fs : Files) (key0 : Digest) (outDir : Path) :
    Option (List (Bytes × Bytes)) := do
  let text ← cache.manifest key0
  (lines text).mapM (depPair fs outDir)

section
variable (sha : Bytes → Digest)

def depDigest (cache : CacheDir) (fs : Files) (key0 : Digest) (outDir : Path) : Option Digest :=
  (depPairs cache fs key0 outDir).map fun pairs => sha (depInput sha pairs)

def begin_ (ccId : Bytes) (fs : Files) (args : List Bytes) (src outDir : Path) :
    Option Pending := do
  let srcBytes ← fs src
  let name ← fileName src
  return ⟨sha (keyInput ccId args src outDir srcBytes), joinPath outDir [name ++ ascii ['.', 'd']]⟩

/-- `ObjCache::lookup`: whether it hit, and the files after it. -/
def lookup (cache : CacheDir) (fs : Files) (p : Pending) (outDir obj : Path) : Bool × Files :=
  match depDigest sha cache fs p.key0 outDir with
  | none => (false, fs)
  | some dd =>
    match cache.object p.key0 dd with
    | none => (false, fs)
    | some cached => (true, Function.update fs obj (some cached))

/-- The dependency list a compile left at `p.depfile`. -/
def depText (fs : Files) (p : Pending) : Option Bytes :=
  (fs p.depfile).filter (isUtf8 0 0x80 0xBF)

def manifestText (outDir : Path) (text : Bytes) : Bytes :=
  unlines ((parseDepfile text).map (depLine outDir))

/-- `ObjCache::store`: the cache and the files after it. -/
def store (cache : CacheDir) (fs : Files) (p : Pending) (outDir obj : Path) : CacheDir × Files :=
  match depText fs p with
  | none => (cache, fs)
  | some text =>
    let fs := Function.update fs p.depfile none
    let cache := { cache with
      manifest := Function.update cache.manifest p.key0 (some (manifestText outDir text)) }
    match depDigest sha cache fs p.key0 outDir with
    | none => (cache, fs)
    | some dd =>
      match fs obj with
      | none => (cache, fs)
      | some o =>
        ({ cache with
            object := Function.update cache.object p.key0
              (Function.update (cache.object p.key0) dd (some o)) }, fs)

end

/-! ### What the recorded texts determine -/

section
variable {outDir outDir' : Path} {fs : Files}

theorem splitLine_depLine (d : Bytes) :
    splitLine outDir' (depLine outDir d) =
      match stripPrefix outDir (components d) with
      | some rel => some (outDir', display rel)
      | none => some ([], d) := by
  rw [depLine]
  cases stripPrefix outDir (components d) <;> simp [splitLine, ascii]

theorem depPair_depLine {d : Bytes} {e : Bytes × Bytes}
    (h : depPair fs outDir' (depLine outDir d) = some e) :
    fs (moveUnder outDir outDir' (components d)) = some e.2 := by
  have hjoin : ∀ rel, joinPath [] rel = rel := fun rel => if_pos (.inr rfl)
  simp only [depPair, splitLine_depLine, moveUnder] at h ⊢
  rcases hrel : stripPrefix outDir (components d) with _ | rel
  · simp only [hrel, Option.bind_eq_bind, Option.bind_some, readFrom, hjoin,
      Option.pure_def] at h ⊢
    split_ifs at h
    · cases h
    · obtain ⟨v, hv, he⟩ := Option.bind_eq_some_iff.mp h
      rw [hv, ← Option.some.inj he]
  · have hpath : IsPath rel := by
      have hdrop := (isPath_components d).drop outDir.length
      rwa [← stripPrefix_eq_some.mp hrel, List.drop_left] at hdrop
    simp only [hrel, Option.bind_eq_bind, Option.bind_some, readFrom,
      components_display hpath, Option.pure_def] at h ⊢
    split_ifs at h
    · cases h
    · obtain ⟨v, hv, he⟩ := Option.bind_eq_some_iff.mp h
      rw [hv, ← Option.some.inj he]

private theorem eq_of_splitLine {line rel : Bytes} {base : Path}
    (h : splitLine outDir line = some (base, rel)) :
    ∃ kind, (kind = ascii ['o'] ∨ kind = ascii ['a']) ∧ line = kind ++ 9 :: rel := by
  rw [splitLine] at h
  split_ifs at h with htab
  have hline : line = line.takeWhile (· ≠ 9) ++ 9 :: (line.dropWhile (· ≠ 9)).tail := by
    clear h
    induction line with
    | nil => cases htab
    | cons b line ih =>
      by_cases hb : b = 9
      · simp [hb]
      · have htab' : (9 : UInt8) ∈ line := (List.mem_cons.mp htab).resolve_left (Ne.symm hb)
        simpa [hb] using ih htab'
  dsimp only at h
  split_ifs at h with ho ha
  · rw [← (Prod.mk.inj (Option.some.inj h)).2]
    exact ⟨_, .inl ho, hline⟩
  · rw [← (Prod.mk.inj (Option.some.inj h)).2]
    exact ⟨_, .inr ha, hline⟩

theorem line_of_depPair {line : Bytes} {e : Bytes × Bytes}
    (h : depPair fs outDir line = some e) : e.1 = line ∧ (0 : UInt8) ∉ line := by
  simp only [depPair, Option.bind_eq_bind, Option.pure_def] at h
  obtain ⟨⟨base, rel⟩, hsplit, h⟩ := Option.bind_eq_some_iff.mp h
  obtain ⟨v, hv, he⟩ := Option.bind_eq_some_iff.mp h
  obtain ⟨kind, hkind, hline⟩ := eq_of_splitLine hsplit
  have hrel : (0 : UInt8) ∉ rel := by
    intro h0
    rw [readFrom, if_pos h0] at hv
    cases hv
  refine ⟨by rw [← Option.some.inj he], ?_⟩
  rw [hline]
  rcases hkind with rfl | rfl <;> simp [ascii, hrel]

end

theorem depPairs_eq_some {cache : CacheDir} {fs : Files} {key0 : Digest} {outDir : Path}
    {pairs : List (Bytes × Bytes)} (h : depPairs cache fs key0 outDir = some pairs) :
    ∃ text, cache.manifest key0 = some text ∧ pairs.map Prod.fst = lines text ∧
      ∀ e ∈ pairs, depPair fs outDir e.1 = some e ∧ (0 : UInt8) ∉ e.1 := by
  rw [depPairs, Option.bind_eq_bind] at h
  obtain ⟨text, htext, hread⟩ := Option.bind_eq_some_iff.mp h
  refine ⟨text, htext, ?_⟩
  clear h
  generalize lines text = ls at hread
  induction ls generalizing pairs with
  | nil =>
    rw [List.mapM_nil] at hread
    cases hread
    simp
  | cons line ls ih =>
    simp only [List.mapM_cons, Option.bind_eq_bind, Option.pure_def] at hread
    obtain ⟨e, he, hread⟩ := Option.bind_eq_some_iff.mp hread
    obtain ⟨es, hes, hread⟩ := Option.bind_eq_some_iff.mp hread
    obtain rfl := Option.some.inj hread
    obtain ⟨hmap, hall⟩ := ih hes
    obtain ⟨heq, h0⟩ := line_of_depPair he
    refine ⟨by rw [List.map_cons, heq, hmap], fun e' he' => ?_⟩
    rcases List.mem_cons.mp he' with rfl | he'
    · exact ⟨heq ▸ he, heq ▸ h0⟩
    · exact hall e' he'

private theorem not_mem_depLine {outDir : Path} {d : Bytes} {b : UInt8}
    (hb : b = 10 ∨ b = 13) (hd : b ∉ d) : b ∉ depLine outDir d := by
  rw [depLine]
  rcases hrel : stripPrefix outDir (components d) with _ | rel
  · rcases hb with rfl | rfl <;> simp [ascii, hd]
  · have hdisp : b ∉ display rel := by
      intro hmem
      rcases mem_display hmem with rfl | ⟨s, hs, hbs⟩
      · simp at hb
      · have hs' : s ∈ components d := by
          rw [← stripPrefix_eq_some.mp hrel]
          exact List.mem_append_right outDir hs
        rcases mem_of_mem_components hs' hbs with h | rfl | rfl
        · exact hd h
        · simp at hb
        · simp at hb
    rcases hb with rfl | rfl <;> simp [ascii, hdisp]

theorem not_mem_of_mem_parseDepfile {text d : Bytes} (hd : d ∈ parseDepfile text) {b : UInt8}
    (hb : b = 10 ∨ b = 13) : b ∉ d := by
  intro hmem
  have hspace := not_mem_splitWhitespace (List.mem_of_mem_filter hd) b hmem
  rcases hb with rfl | rfl <;> simp [isAsciiSpace] at hspace

theorem lines_manifestText (outDir : Path) (text : Bytes) :
    lines (manifestText outDir text) = (parseDepfile text).map (depLine outDir) := by
  have hline : ∀ b : UInt8, b = 10 ∨ b = 13 →
      ∀ l ∈ (parseDepfile text).map (depLine outDir), b ∉ l := by
    intro b hb l hl
    obtain ⟨d, hd, rfl⟩ := List.mem_map.mp hl
    exact not_mem_depLine hb (not_mem_of_mem_parseDepfile hd hb)
  exact lines_unlines (hline 10 (.inl rfl)) (hline 13 (.inr rfl))

private theorem append_zero_inj {l l' r r' : Bytes} (hl : (0 : UInt8) ∉ l) (hl' : (0 : UInt8) ∉ l')
    (h : l ++ 0 :: r = l' ++ 0 :: r') : l = l' ∧ r = r' := by
  induction l generalizing l' with
  | nil =>
    cases l' with
    | nil => exact ⟨rfl, (List.cons.inj h).2⟩
    | cons b l' => exact absurd (List.cons.inj h).1 fun hb => hl' (by simp [hb])
  | cons a l ih =>
    cases l' with
    | nil => exact absurd (List.cons.inj h).1 fun ha => hl (by simp [ha])
    | cons b l' =>
      obtain ⟨rfl, htl⟩ := List.cons.inj h
      obtain ⟨rfl, rfl⟩ := ih (fun h0 => hl (List.mem_cons_of_mem a h0))
        (fun h0 => hl' (List.mem_cons_of_mem a h0)) htl
      exact ⟨rfl, rfl⟩

theorem depInput_injective {sha : Bytes → Digest} {es es' : List (Bytes × Bytes)}
    (h0 : ∀ e ∈ es, (0 : UInt8) ∉ e.1) (h0' : ∀ e ∈ es', (0 : UInt8) ∉ e.1)
    (h : depInput sha es = depInput sha es') :
    es.map (fun e => (e.1, sha e.2)) = es'.map fun e => (e.1, sha e.2) := by
  have hbody := List.append_cancel_left h
  clear h
  induction es generalizing es' with
  | nil =>
    cases es' with
    | nil => rfl
    | cons e es' => simp at hbody
  | cons e es ih =>
    cases es' with
    | nil => simp at hbody
    | cons e' es' =>
      rw [List.flatMap_cons, List.flatMap_cons, List.append_assoc, List.append_assoc,
        List.append_assoc, List.append_assoc, List.singleton_append,
        List.singleton_append] at hbody
      obtain ⟨hline, hrest⟩ := append_zero_inj (h0 e List.mem_cons_self)
        (h0' e' List.mem_cons_self) hbody
      -- both digests are 32 bytes, so the rest is cut at the same place
      obtain ⟨hdig, hrest⟩ := List.append_inj hrest (by rw [(sha e.2).2, (sha e'.2).2])
      rw [List.map_cons, List.map_cons, hline, Subtype.ext hdig,
        ih (fun x hx => h0 x (List.mem_cons_of_mem e hx))
          (fun x hx => h0' x (List.mem_cons_of_mem e' hx)) hrest]

/-! ### Compilers and runs -/

/-- A compiler with `-MD`.  `tree` is what it does with arguments, source path,
output directory and source bytes; `depText` is the dependency list it writes for
an object and the files it read. -/
structure Compiler where
  tree : List Bytes → Path → Path → Bytes → ReadTree Path Bytes (Option Bytes)
  depText : Path → List Path → Bytes

namespace Compiler

variable (cc : Compiler)

def treeOf (j : Job) (srcBytes : Bytes) : ReadTree Path Bytes (Option Bytes) :=
  cc.tree j.args j.src j.outDir srcBytes

def compile (j : Job) (fs : Files) : Option Bytes := do
  let srcBytes ← fs j.src
  (cc.treeOf j srcBytes).run fs

end Compiler

/-- A compile that was carried out: the source it read and the files it ran on. -/
structure Compiled where
  srcBytes : Bytes
  fs : Files

/-- An object that was recorded: for which job, of which compile, under which key
input, with which dependency lines and contents. -/
structure Recorded where
  job : Job
  keyIn : Bytes
  compiled : Compiled
  pairs : List (Bytes × Bytes)
  object : Bytes

/-- The state of a run.  The fields up to `pend` are the system's; the others are
its history, which no step reads. -/
structure Machine where
  fs : Files
  cache : CacheDir
  pend : ℕ → Option Pending
  keyIn : ℕ → Bytes
  compiled : ℕ → Option Compiled
  recorded : List Recorded
  hashed : List Bytes

def Machine.start (fs : Files) : Machine where
  fs := fs
  cache := ⟨fun _ => none, fun _ _ => none⟩
  pend _ := none
  keyIn _ := []
  compiled _ := none
  recorded := []
  hashed := []

/-- A step of a run: one of a job's, or something else touching files. -/
inductive Op where
  | begin_ (i : ℕ)
  | compile (i : ℕ)
  | store (i : ℕ)
  | lookup (i : ℕ)
  | edit (p : Path) (v : Option Bytes)
  | evict (key dd : Digest)

section
variable (sha : Bytes → Digest) (ccId : Bytes) (cc : Compiler) (jobs : ℕ → Job)

namespace Machine

/-- What a digest over the dependencies of job `i` would be taken of. -/
def pairsAt (m : Machine) (i : ℕ) (p : Pending) : Option (List (Bytes × Bytes)) :=
  depPairs m.cache m.fs p.key0 (jobs i).outDir

/-- The inputs hashed to digest the dependencies `pairs`. -/
def depHashed (pairs : List (Bytes × Bytes)) : List Bytes :=
  depInput sha pairs :: pairs.map Prod.snd

def stepBegin (m : Machine) (i : ℕ) : Machine :=
  let j := jobs i
  match begin_ sha ccId m.fs j.args j.src j.outDir with
  | none => { m with pend := Function.update m.pend i none }
  | some p =>
    let k := keyInput ccId j.args j.src j.outDir ((m.fs j.src).getD [])
    { m with
      pend := Function.update m.pend i (some p)
      keyIn := Function.update m.keyIn i k
      hashed := k :: m.hashed }

/-- The compiler runs; when it succeeds it writes the object and the dependency
list. -/
def stepCompile (m : Machine) (i : ℕ) : Machine :=
  match m.pend i with
  | none => m
  | some p =>
    let j := jobs i
    match m.fs j.src, cc.compile j m.fs with
    | some s, some o =>
      let deps := cc.depText j.obj (j.src :: (cc.treeOf j s).found m.fs)
      { m with
        fs := Function.update (Function.update m.fs j.obj (some o)) p.depfile (some deps)
        compiled := Function.update m.compiled i (some ⟨s, m.fs⟩) }
    | _, _ => { m with compiled := Function.update m.compiled i none }

def stepStore (m : Machine) (i : ℕ) : Machine :=
  match m.pend i with
  | none => m
  | some p =>
    let j := jobs i
    let after := store sha m.cache m.fs p j.outDir j.obj
    let m' := { m with cache := after.1, fs := after.2 }
    -- the history: which object was recorded, if one was
    match depText m.fs p, m'.pairsAt jobs i p, after.2 j.obj, m.compiled i with
    | some _, some pairs, some o, some c =>
      { m' with
        recorded := ⟨j, m.keyIn i, c, pairs, o⟩ :: m.recorded
        hashed := depHashed sha pairs ++ m.hashed }
    | _, _, _, _ => m'

def stepLookup (m : Machine) (i : ℕ) : Machine :=
  match m.pend i with
  | none => m
  | some p =>
    let j := jobs i
    { m with
      fs := (lookup sha m.cache m.fs p j.outDir j.obj).2
      hashed := ((m.pairsAt jobs i p).map (depHashed sha)).getD [] ++ m.hashed }

def step (m : Machine) : Op → Machine
  | .begin_ i => m.stepBegin sha ccId jobs i
  | .compile i => m.stepCompile cc jobs i
  | .store i => m.stepStore sha jobs i
  | .lookup i => m.stepLookup sha jobs i
  | .edit p v => { m with fs := Function.update m.fs p v }
  | .evict key dd =>
    { m with
      cache := { m.cache with
        object := Function.update m.cache.object key
          (Function.update (m.cache.object key) dd none) } }

def run (m : Machine) (ops : List Op) : Machine :=
  ops.foldl (step sha ccId cc jobs) m

end Machine

end

end Aret
