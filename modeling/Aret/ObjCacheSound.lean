/-
When a cache hit is exact.

A lookup that hits should serve the object that compiling the job on the files
as they are would produce.  It does not in general: a header that was absent when
the object was compiled, and is found first now, is in no dependency list.

* `lookup_serves_stale_object` — a run in which a lookup serves the wrong object;
* `lookup_exact` — in such a run every hit is exact.
-/
import Aret.ObjCache

namespace Aret

section
variable (sha : Bytes → Digest) (ccId : Bytes) (cc : Compiler) (jobs : ℕ → Job)

def NoCollision (hashed : List Bytes) : Prop :=
  ∀ x ∈ hashed, ∀ y ∈ hashed, sha x = sha y → x = y

namespace Recorded

def filesRead (r : Recorded) : List Path :=
  r.job.src :: (cc.treeOf r.job r.compiled.srcBytes).found r.compiled.fs

def filesMissed (r : Recorded) : List Path :=
  (cc.treeOf r.job r.compiled.srcBytes).missed r.compiled.fs

/-- Every file the compile read has its contents of then, seen from `outDir`. -/
def Fresh (r : Recorded) (fs : Files) (outDir : Path) : Prop :=
  ∀ q ∈ r.filesRead cc, fs (moveUnder r.job.outDir outDir q) = r.compiled.fs q

end Recorded

namespace Machine

/-- Whenever a lookup of job `i` hits, it writes the object that compiling the job
on the current files produces. -/
def LookupExact (m : Machine) (i : ℕ) : Prop :=
  ∀ p, m.pend i = some p →
    (lookup sha m.cache m.fs p (jobs i).outDir (jobs i).obj).1 = true →
      (lookup sha m.cache m.fs p (jobs i).outDir (jobs i).obj).2 (jobs i).obj
        = cc.compile (jobs i) m.fs

/-- What a store has to find, when it finds every listed file and an object: the
output of the job's compile, the files as that compile read them, and each of
them listed. -/
def StoreOk (m : Machine) (i : ℕ) : Prop :=
  ∀ p text o, m.pend i = some p → depText m.fs p = some text →
    (∀ d ∈ parseDepfile text, Function.update m.fs p.depfile none (components d) ≠ none) →
    Function.update m.fs p.depfile none (jobs i).obj = some o →
    ∃ c, m.compiled i = some c ∧ (cc.treeOf (jobs i) c.srcBytes).run c.fs = some o ∧
      ∀ q ∈ (jobs i).src :: (cc.treeOf (jobs i) c.srcBytes).found c.fs,
        (∃ d ∈ parseDepfile text, components d = q) ∧
          Function.update m.fs p.depfile none q = c.fs q

/-- What a lookup has to find, of every compile that was recorded under its key and
whose files are unchanged: it was a compile of the bytes the source has now, by a
job that compiles them the same way, and what it looked up in vain is still
absent. -/
def LookupOk (m : Machine) (i : ℕ) : Prop :=
  ∀ r ∈ m.recorded, r.keyIn = m.keyIn i → r.Fresh cc m.fs (jobs i).outDir →
    m.fs (jobs i).src = some r.compiled.srcBytes ∧
    (∀ fs, (cc.treeOf (jobs i) r.compiled.srcBytes).run fs
      = (cc.treeOf r.job r.compiled.srcBytes).run
          fun q => fs (moveUnder r.job.outDir (jobs i).outDir q)) ∧
    ∀ q ∈ r.filesMissed cc, m.fs (moveUnder r.job.outDir (jobs i).outDir q) = none

def StepOk (m : Machine) : Op → Prop
  | .store i => m.StoreOk cc jobs i
  | .lookup i => m.LookupOk cc jobs i
  | _ => True

def SafeRun (m : Machine) : List Op → Prop
  | [] => True
  | op :: ops => m.StepOk cc jobs op ∧ SafeRun (m.step sha ccId cc jobs op) ops

/-! ### The invariant -/

end Machine

/-- A record that vouches for its object: the object is the compile's output, and
every file the compile read is listed with the contents it had. -/
structure Recorded.Sound (r : Recorded) : Prop where
  output : (cc.treeOf r.job r.compiled.srcBytes).run r.compiled.fs = some r.object
  covers : ∀ q ∈ r.filesRead cc, ∃ d v,
    (depLine r.job.outDir d, v) ∈ r.pairs ∧ components d = q ∧ r.compiled.fs q = some v
  readable : ∀ e ∈ r.pairs, (0 : UInt8) ∉ e.1

namespace Machine

/-- Pending keys are digests of what `begin` hashed, and every object in the cache
has a sound record under its key and dependency digest. -/
structure Inv (m : Machine) : Prop where
  pend : ∀ i p, m.pend i = some p → p.key0 = sha (m.keyIn i) ∧ m.keyIn i ∈ m.hashed
  recorded : ∀ r ∈ m.recorded,
    r.Sound cc ∧ r.keyIn ∈ m.hashed ∧ depHashed sha r.pairs ⊆ m.hashed
  object : ∀ key dd o, m.cache.object key dd = some o → ∃ r ∈ m.recorded,
    sha r.keyIn = key ∧ sha (depInput sha r.pairs) = dd ∧ r.object = o

variable {sha ccId cc jobs} {m : Machine}

theorem inv_start (fs : Files) : (start fs).Inv sha cc where
  pend := by simp [start]
  recorded := by simp [start]
  object := by simp [start]

theorem Inv.frame (h : m.Inv sha cc) {m' : Machine} (hpend : m'.pend = m.pend)
    (hkey : m'.keyIn = m.keyIn) (hrec : m'.recorded = m.recorded)
    (hhash : m.hashed ⊆ m'.hashed)
    (hobj : ∀ key dd o, m'.cache.object key dd = some o → m.cache.object key dd = some o) :
    m'.Inv sha cc where
  pend i p hp := by
    obtain ⟨hk, hin⟩ := h.pend i p (hpend ▸ hp)
    rw [hkey]
    exact ⟨hk, hhash hin⟩
  recorded r hr := by
    obtain ⟨hs, hk, hd⟩ := h.recorded r (hrec ▸ hr)
    exact ⟨hs, hhash hk, fun x hx => hhash (hd hx)⟩
  object key dd o ho := by
    rw [hrec]
    exact h.object key dd o (hobj key dd o ho)

theorem Inv.stepBegin (h : m.Inv sha cc) (i : ℕ) : (m.stepBegin sha ccId jobs i).Inv sha cc := by
  rw [Machine.stepBegin]
  dsimp only
  rcases hb : begin_ sha ccId m.fs (jobs i).args (jobs i).src (jobs i).outDir with _ | p
  · refine ⟨fun k q hq => ?_, h.recorded, h.object⟩
    by_cases hk : k = i
    · simp [hk] at hq
    · exact h.pend k q (by simpa [hk] using hq)
  · refine ⟨fun k q hq => ?_, fun r hr => ?_, h.object⟩
    · by_cases hk : k = i
      · subst hk
        simp only [Function.update_self, Option.some.injEq] at hq
        subst hq
        -- `begin` read the source, so the key is of the bytes it read
        simp only [begin_, Option.bind_eq_bind, Option.pure_def] at hb
        obtain ⟨s, hs, hb⟩ := Option.bind_eq_some_iff.mp hb
        obtain ⟨name, -, hb⟩ := Option.bind_eq_some_iff.mp hb
        simp [← Option.some.inj hb, hs]
      · obtain ⟨hkey, hin⟩ := h.pend k q (by simpa [hk] using hq)
        simp [hk, hkey, hin]
    · obtain ⟨hs, hk, hd⟩ := h.recorded r hr
      exact ⟨hs, List.mem_cons_of_mem _ hk, fun x hx => List.mem_cons_of_mem _ (hd hx)⟩

theorem Inv.stepCompile (h : m.Inv sha cc) (i : ℕ) : (m.stepCompile cc jobs i).Inv sha cc := by
  rw [Machine.stepCompile]
  split
  · exact h
  · dsimp only
    split <;> exact h.frame rfl rfl rfl (fun _ hx => hx) fun _ _ _ ho => ho

theorem Inv.stepLookup (h : m.Inv sha cc) (i : ℕ) : (m.stepLookup sha jobs i).Inv sha cc := by
  rw [Machine.stepLookup]
  split
  · exact h
  · exact h.frame rfl rfl rfl (List.subset_append_right _ _) fun _ _ _ ho => ho

theorem stepStore_cases (m : Machine) (i : ℕ) :
    (∃ fs cache, m.stepStore sha jobs i = { m with fs := fs, cache := cache } ∧
      cache.object = m.cache.object) ∨
    ∃ p text pairs o, m.pend i = some p ∧ depText m.fs p = some text ∧
      Function.update m.fs p.depfile none (jobs i).obj = some o ∧
      pairs.map Prod.fst = (parseDepfile text).map (depLine (jobs i).outDir) ∧
      (∀ e ∈ pairs, depPair (Function.update m.fs p.depfile none) (jobs i).outDir e.1 = some e ∧
        (0 : UInt8) ∉ e.1) ∧
      ∀ c, m.compiled i = some c → ∃ fs cache,
        m.stepStore sha jobs i = { m with
          fs := fs
          cache := cache
          recorded := ⟨jobs i, m.keyIn i, c, pairs, o⟩ :: m.recorded
          hashed := depHashed sha pairs ++ m.hashed } ∧
        cache.object = Function.update m.cache.object p.key0
          (Function.update (m.cache.object p.key0) (sha (depInput sha pairs)) (some o)) := by
  rcases hp : m.pend i with _ | p
  · exact .inl ⟨m.fs, m.cache, by rw [stepStore, hp], rfl⟩
  rcases ht : depText m.fs p with _ | text
  · exact .inl ⟨m.fs, m.cache, by simp [stepStore, hp, store, ht], rfl⟩
  set fs := Function.update m.fs p.depfile none with hfs
  set cache : CacheDir := { m.cache with
    manifest := Function.update m.cache.manifest p.key0
      (some (manifestText (jobs i).outDir text)) } with hcache
  rcases hpairs : depPairs cache fs p.key0 (jobs i).outDir with _ | pairs
  · refine .inl ⟨fs, cache, ?_, rfl⟩
    simp [stepStore, hp, store, ht, depDigest, ← hfs, ← hcache, hpairs, pairsAt]
  rcases ho : fs (jobs i).obj with _ | o
  · refine .inl ⟨fs, cache, ?_, rfl⟩
    simp [stepStore, hp, store, ht, depDigest, ← hfs, ← hcache, hpairs, pairsAt, ho]
  obtain ⟨t, htext, hmap, hall⟩ := depPairs_eq_some hpairs
  have ht' : t = manifestText (jobs i).outDir text := by
    simpa [hcache] using htext.symm
  rw [ht', lines_manifestText] at hmap
  refine .inr ⟨p, text, pairs, o, rfl, ht, ho, hmap, hall, fun c hc => ?_⟩
  set cache' : CacheDir := { cache with
    object := Function.update m.cache.object p.key0
      (Function.update (m.cache.object p.key0) (sha (depInput sha pairs)) (some o)) } with hcache'
  have hpairs' : depPairs cache' fs p.key0 (jobs i).outDir = some pairs := hpairs
  have hstore : store sha m.cache m.fs p (jobs i).outDir (jobs i).obj = (cache', fs) := by
    simp only [store, ht, depDigest, ← hfs, ← hcache, hpairs, ho, Option.map_some]
    rfl
  refine ⟨fs, cache', ?_, rfl⟩
  simp [stepStore, hp, hstore, ht, pairsAt, hpairs', ho, hc]

theorem Inv.stepStore (h : m.Inv sha cc) {i : ℕ} (hok : m.StoreOk cc jobs i) :
    (m.stepStore sha jobs i).Inv sha cc := by
  rcases stepStore_cases m i with
    ⟨fs, cache, hstep, hobj⟩ | ⟨p, text, pairs, o, hp, ht, ho, hmap, hall, hstep⟩
  · rw [hstep]
    exact h.frame rfl rfl rfl (fun _ hx => hx) fun key dd v hv => by rwa [← hobj]
  · -- every listed file was read, at the path the dependency list names
    have hread : ∀ d ∈ parseDepfile text, ∃ v, (depLine (jobs i).outDir d, v) ∈ pairs ∧
        Function.update m.fs p.depfile none (components d) = some v := by
      intro d hd
      obtain ⟨e, he, hed⟩ : ∃ e ∈ pairs, e.1 = depLine (jobs i).outDir d :=
        List.mem_map.mp (hmap ▸ List.mem_map_of_mem hd)
      have hfile := depPair_depLine (hed ▸ (hall e he).1)
      rw [moveUnder_self (isPath_components d)] at hfile
      exact ⟨e.2, hed ▸ he, hfile⟩
    obtain ⟨c, hc, hout, hfiles⟩ := hok p text o hp ht
      (fun d hd => by
        obtain ⟨v, -, hv⟩ := hread d hd
        simp [hv]) ho
    obtain ⟨fs, cache, hstep, hobj⟩ := hstep c hc
    have hsound : Recorded.Sound cc ⟨jobs i, m.keyIn i, c, pairs, o⟩ := by
      refine ⟨hout, fun q hq => ?_, fun e he => (hall e he).2⟩
      obtain ⟨⟨d, hd, hdq⟩, hsame⟩ := hfiles q hq
      obtain ⟨v, hv, hval⟩ := hread d hd
      exact ⟨d, v, hv, hdq, by rw [← hsame, ← hdq, hval]⟩
    rw [hstep]
    obtain ⟨hkey, hin⟩ := h.pend i p hp
    refine ⟨fun k q hq => ?_, fun r hr => ?_, fun key dd v hv => ?_⟩
    · obtain ⟨hk, hmem⟩ := h.pend k q hq
      exact ⟨hk, List.mem_append_right _ hmem⟩
    · rcases List.mem_cons.mp hr with rfl | hr
      · exact ⟨hsound, List.mem_append_right _ hin, List.subset_append_left _ _⟩
      · obtain ⟨hs, hk, hd⟩ := h.recorded r hr
        exact ⟨hs, List.mem_append_right _ hk, fun x hx => List.mem_append_right _ (hd hx)⟩
    · -- the new entry has the new record; every other one keeps its own
      have hv' : Function.update m.cache.object p.key0
          (Function.update (m.cache.object p.key0) (sha (depInput sha pairs)) (some o)) key dd
          = some v := hobj ▸ hv
      by_cases hk : key = p.key0
      · subst hk
        by_cases hd : dd = sha (depInput sha pairs)
        · subst hd
          simp only [Function.update_self, Option.some.injEq] at hv'
          exact ⟨_, List.mem_cons_self, hkey.symm, rfl, hv'⟩
        · obtain ⟨r, hr, hrest⟩ := h.object p.key0 dd v (by simpa [hd] using hv')
          exact ⟨r, List.mem_cons_of_mem _ hr, hrest⟩
      · obtain ⟨r, hr, hrest⟩ := h.object key dd v (by simpa [hk] using hv')
        exact ⟨r, List.mem_cons_of_mem _ hr, hrest⟩

theorem Inv.evict (h : m.Inv sha cc) (key dd : Digest) :
    (m.step sha ccId cc jobs (.evict key dd)).Inv sha cc := by
  refine h.frame rfl rfl rfl (fun _ hx => hx) fun key' dd' o ho => ?_
  by_cases hk : key' = key
  · subst hk
    by_cases hd : dd' = dd
    · simp [step, hd] at ho
    · simpa [step, hd] using ho
  · simpa [step, hk] using ho

theorem Inv.step (h : m.Inv sha cc) {op : Op} (hok : m.StepOk cc jobs op) :
    (m.step sha ccId cc jobs op).Inv sha cc := by
  cases op with
  | begin_ i => exact h.stepBegin i
  | compile i => exact h.stepCompile i
  | store i => exact h.stepStore hok
  | lookup i => exact h.stepLookup i
  | edit p v => exact h.frame rfl rfl rfl (fun _ hx => hx) fun _ _ _ ho => ho
  | evict key dd => exact h.evict key dd

theorem Inv.run {ops : List Op} (h : m.Inv sha cc) (hok : m.SafeRun sha ccId cc jobs ops) :
    (m.run sha ccId cc jobs ops).Inv sha cc := by
  induction ops generalizing m with
  | nil => exact h
  | cons op ops ih => exact ih (h.step hok.1) hok.2

theorem SafeRun.split {ops : List Op} {op : Op}
    (h : m.SafeRun sha ccId cc jobs (ops ++ [op])) :
    m.SafeRun sha ccId cc jobs ops ∧ (m.run sha ccId cc jobs ops).StepOk cc jobs op := by
  induction ops generalizing m with
  | nil => exact ⟨trivial, h.1⟩
  | cons op' ops ih => exact ⟨⟨h.1, (ih h.2).1⟩, (ih h.2).2⟩

/-! ### Hits -/

private theorem pairs_unique {es es' : List (Bytes × Bytes)} {hashed : List Bytes}
    (hnc : NoCollision sha hashed) (h0 : ∀ e ∈ es, (0 : UInt8) ∉ e.1)
    (h0' : ∀ e ∈ es', (0 : UInt8) ∉ e.1) (hes : depHashed sha es ⊆ hashed)
    (hes' : depHashed sha es' ⊆ hashed)
    (h : sha (depInput sha es) = sha (depInput sha es')) : es = es' := by
  have hin := hnc _ (hes List.mem_cons_self) _ (hes' List.mem_cons_self) h
  have hmap := depInput_injective h0 h0' hin
  have hsub : ∀ e ∈ es, e.2 ∈ hashed := fun e he =>
    hes (List.mem_cons_of_mem _ (List.mem_map_of_mem he))
  have hsub' : ∀ e ∈ es', e.2 ∈ hashed := fun e he =>
    hes' (List.mem_cons_of_mem _ (List.mem_map_of_mem he))
  clear h hin hes hes' h0 h0'
  induction es generalizing es' with
  | nil =>
    cases es' with
    | nil => rfl
    | cons e es' => cases hmap
  | cons e es ih =>
    cases es' with
    | nil => cases hmap
    | cons e' es' =>
      obtain ⟨hhead, htail⟩ := List.cons.inj hmap
      obtain ⟨hline, hdig⟩ := Prod.mk.inj hhead
      have hval := hnc _ (hsub e List.mem_cons_self) _ (hsub' e' List.mem_cons_self) hdig
      rw [Prod.ext hline hval, ih htail (fun x hx => hsub x (List.mem_cons_of_mem e hx))
        fun x hx => hsub' x (List.mem_cons_of_mem e' hx)]

theorem lookup_eq_true {cache : CacheDir} {fs : Files} {p : Pending} {outDir obj : Path}
    (h : (lookup sha cache fs p outDir obj).1 = true) :
    ∃ pairs o, depPairs cache fs p.key0 outDir = some pairs ∧
      cache.object p.key0 (sha (depInput sha pairs)) = some o ∧
      (lookup sha cache fs p outDir obj).2 obj = some o := by
  rcases hpairs : depPairs cache fs p.key0 outDir with _ | pairs
  · simp [lookup, depDigest, hpairs] at h
  rcases ho : cache.object p.key0 (sha (depInput sha pairs)) with _ | o
  · simp [lookup, depDigest, hpairs, ho] at h
  exact ⟨pairs, o, rfl, ho, by simp [lookup, depDigest, hpairs, ho]⟩

end Machine

theorem Recorded.Sound.fresh {cc : Compiler} {r : Recorded} (hr : r.Sound cc) {fs : Files}
    {outDir : Path} (hall : ∀ e ∈ r.pairs, depPair fs outDir e.1 = some e) :
    r.Fresh cc fs outDir := by
  intro q hq
  obtain ⟨d, v, hd, hdq, hv⟩ := hr.covers q hq
  rw [hv, ← hdq]
  exact depPair_depLine (hall _ hd)

/-- In a run whose steps all meet their condition every hit is exact. -/
theorem lookup_exact {fs : Files} {ops : List Op} {i : ℕ}
    (hsafe : (Machine.start fs).SafeRun sha ccId cc jobs (ops ++ [.lookup i]))
    (hnc : NoCollision sha ((Machine.start fs).run sha ccId cc jobs (ops ++ [.lookup i])).hashed) :
    ((Machine.start fs).run sha ccId cc jobs ops).LookupExact sha cc jobs i := by
  obtain ⟨hsafe, hok⟩ := hsafe.split
  have hstart : (Machine.start fs).Inv sha cc := Machine.inv_start fs
  have hinv := hstart.run hsafe
  have hlast : (Machine.start fs).run sha ccId cc jobs (ops ++ [.lookup i])
      = ((Machine.start fs).run sha ccId cc jobs ops).stepLookup sha jobs i := by
    simp [Machine.run, List.foldl_append, Machine.step]
  rw [hlast] at hnc
  generalize (Machine.start fs).run sha ccId cc jobs ops = m at hinv hok hnc
  intro p hp hhit
  obtain ⟨pairs, o, hpairs, hobj, hserved⟩ := Machine.lookup_eq_true hhit
  obtain ⟨-, -, -, hread⟩ := depPairs_eq_some hpairs
  have hhash : (m.stepLookup sha jobs i).hashed = Machine.depHashed sha pairs ++ m.hashed := by
    simp [Machine.stepLookup, hp, Machine.pairsAt, hpairs]
  rw [hhash] at hnc
  -- the object has a record, made under the same key input and of the same pairs
  obtain ⟨r, hr, hkey, hdd, rfl⟩ := hinv.object _ _ _ hobj
  obtain ⟨hsound, hkin, hdin⟩ := hinv.recorded r hr
  obtain ⟨hpkey, hpin⟩ := hinv.pend i p hp
  have hk : r.keyIn = m.keyIn i :=
    hnc _ (List.mem_append_right _ hkin) _ (List.mem_append_right _ hpin) (hkey.trans hpkey)
  have heq : r.pairs = pairs :=
    Machine.pairs_unique hnc hsound.readable (fun e he => (hread e he).2)
      (fun x hx => List.mem_append_right _ (hdin hx)) (List.subset_append_left _ _) hdd
  have hfresh : r.Fresh cc m.fs (jobs i).outDir :=
    hsound.fresh fun e he => (hread e (heq ▸ he)).1
  obtain ⟨hsrc, hsame, hmissed⟩ := hok r hr hk hfresh
  -- so the recorded compile looks up the same contents on the current files
  have hrun : (cc.treeOf r.job r.compiled.srcBytes).run
      (fun q => m.fs (moveUnder r.job.outDir (jobs i).outDir q)) = some r.object := by
    rw [← hsound.output]
    refine ReadTree.run_of_found_missed (fun q hq => ?_) fun q hq => hmissed q hq
    exact hfresh q (List.mem_cons_of_mem _ hq)
  rw [hserved, Compiler.compile, hsrc, Option.bind_eq_bind, Option.bind_some, hsame, hrun]

end

/-! ### A stale hit -/

section

/-- A compiler whose object is the header `h` of the first of two include
directories that has one. -/
def headerCompiler : Compiler where
  tree _ _ outDir _ :=
    .look (outDir ++ [ascii ['a'], ascii ['h']]) fun
      | some v => .done (some v)
      | none => .look (outDir ++ [ascii ['b'], ascii ['h']]) fun v => .done v
  depText obj read :=
    display obj ++ [58] ++ read.flatMap fun q => 32 :: display q

def padDigest (l : Bytes) : Digest :=
  ⟨(l ++ List.replicate 32 0).take 32, by simp⟩

def twoJobs (i : ℕ) : Job where
  args := [ascii ['-', 'c']]
  src := [rootDir, ascii ['o'], ascii ['t']]
  outDir := [rootDir, ascii ['o']]
  obj := [rootDir, ascii ['o'], if i = 0 then ascii ['x'] else ascii ['y']]

def oneHeader : Files := fun q =>
  if q = [rootDir, ascii ['o'], ascii ['t']] then some [1]
  else if q = [rootDir, ascii ['o'], ascii ['b'], ascii ['h']] then some [2]
  else none

def recordingRun : List Op := [.begin_ 0, .compile 0, .store 0]

/-- Record the first job, create the header its compile looked for first, and begin
the second job, which is the same compile. -/
def shadowingRun : List Op :=
  recordingRun ++ [.edit [rootDir, ascii ['o'], ascii ['a'], ascii ['h']] (some [3]), .begin_ 1]

/-- **A lookup can serve a stale object**: after `shadowingRun` the lookup of the
second job hits on an object made of the header `2`, where compiling would now find
the header `3` first. -/
theorem lookup_serves_stale_object :
    ¬ ∀ (sha : Bytes → Digest) (ccId : Bytes) (cc : Compiler) (jobs : ℕ → Job) (fs : Files)
        (ops : List Op) (i : ℕ),
      NoCollision sha
          ((Machine.start fs).run sha ccId cc jobs (ops ++ [.lookup i])).hashed →
        ((Machine.start fs).run sha ccId cc jobs ops).LookupExact sha cc jobs i := by
  intro h
  have hnc : NoCollision padDigest ((Machine.start oneHeader).run padDigest [] headerCompiler
      twoJobs (shadowingRun ++ [.lookup 1])).hashed := by
    unfold NoCollision
    decide
  have hexact := h padDigest [] headerCompiler twoJobs oneHeader shadowingRun 1 hnc
  generalize hm : (Machine.start oneHeader).run padDigest [] headerCompiler twoJobs shadowingRun
    = m at hexact
  have hwrong : ∃ p, m.pend 1 = some p ∧
      (lookup padDigest m.cache m.fs p (twoJobs 1).outDir (twoJobs 1).obj).1 = true ∧
      (lookup padDigest m.cache m.fs p (twoJobs 1).outDir (twoJobs 1).obj).2 (twoJobs 1).obj
        = some [2] ∧
      headerCompiler.compile (twoJobs 1) m.fs = some [3] := by
    subst hm
    exact ⟨_, rfl, by decide, by decide, by decide⟩
  obtain ⟨p, hp, hhit, hserved, hcompile⟩ := hwrong
  have heq := hexact p hp hhit
  rw [hserved, hcompile] at heq
  exact absurd heq (by decide)

private theorem headerCompiler_run (i : ℕ) (s : Bytes) (fs : Files) :
    (headerCompiler.treeOf (twoJobs i) s).run fs
      = (fs [rootDir, ascii ['o'], ascii ['a'], ascii ['h']]).orElse
          fun _ => fs [rootDir, ascii ['o'], ascii ['b'], ascii ['h']] := by
  have htree : (headerCompiler.treeOf (twoJobs i) s).run fs
      = (match fs [rootDir, ascii ['o'], ascii ['a'], ascii ['h']] with
          | some v => ReadTree.done (some v)
          | none => .look [rootDir, ascii ['o'], ascii ['b'], ascii ['h']] .done).run fs := rfl
  rw [htree]
  cases fs [rootDir, ascii ['o'], ascii ['a'], ascii ['h']] <;> rfl

/-- Without the edit the second job's lookup hits, and the hit is exact. -/
theorem lookup_exact_unshadowed :
    let m := (Machine.start oneHeader).run padDigest [] headerCompiler twoJobs
      (recordingRun ++ [.begin_ 1])
    (m.pend 1).map (fun p =>
        (lookup padDigest m.cache m.fs p (twoJobs 1).outDir (twoJobs 1).obj).1) = some true ∧
      m.LookupExact padDigest headerCompiler twoJobs 1 := by
  have hsafe : (Machine.start oneHeader).SafeRun padDigest [] headerCompiler twoJobs
      ((recordingRun ++ [.begin_ 1]) ++ [.lookup 1]) := by
    change _ ∧ _ ∧ _ ∧ _ ∧ _ ∧ _
    refine ⟨trivial, trivial, ?_, trivial, ?_, trivial⟩
    · intro p text o hp ht _ ho
      obtain rfl := Option.some.inj hp
      obtain rfl := Option.some.inj ht
      obtain rfl := Option.some.inj ho
      exact ⟨⟨[1], oneHeader⟩, rfl, by decide, by decide⟩
    · intro r hr _ _
      obtain rfl := List.mem_singleton.mp hr
      refine ⟨by decide, fun fs => ?_, by decide⟩
      -- both jobs write to one directory, where moving a path changes nothing
      rw [headerCompiler_run, headerCompiler_run]
      rfl
  refine ⟨by decide, lookup_exact padDigest [] headerCompiler twoJobs hsafe ?_⟩
  unfold NoCollision
  decide

end

end Aret
