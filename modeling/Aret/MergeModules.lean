/-
Merging DLLs into the address space of a program.

`merge_modules` gives each DLL a base above every byte placed before, moves it there
and adds what it has to the program.

* `mergeModules_rebases` — after all of them the modules are apart, and what a DLL had
  at an address is at the moved address.
-/
import Aret.Image
import Mathlib.Data.List.Find

namespace Aret.Merge

open Image

variable {α : Type}

/-! ### Programs -/

/-- `KnownSymbol`. -/
structure Symbol where
  address : ℕ
  name : String
  isFunction : Bool
  deriving DecidableEq

/-- `PeExportTarget`. -/
inductive ExportTarget
  | address (va : ℕ)
  | forwardByName (dll name : String)
  | forwardByOrdinal (dll : String) (ordinal : ℕ)
  deriving DecidableEq

/-- `PeExport`. -/
structure Export where
  ordinal : ℕ
  name : Option String
  target : ExportTarget
  deriving DecidableEq

/-- `PeImport`. -/
structure Import where
  dll : String
  name : Option String
  ordinal : Option ℕ
  deriving DecidableEq

/-- A loaded program, with what merging reads and writes.  The maps are lists of their
entries; a set is the ascending list of its elements. -/
structure Program where
  bits : ℕ
  entry : ℕ
  imageBase : ℕ
  tlsDirVa : ℕ
  exports : List Export
  sections : List Section
  symbols : List (ℕ × Symbol)
  imports : List (ℕ × String)
  peImports : List (ℕ × Import)
  baseRelocs : List ℕ
  deriving DecidableEq

structure LoadedModule where
  name : String
  exports : List Export
  initEntry : ℕ
  hinstance : ℕ
  ctors : List ℕ
  tlsCallbacks : List ℕ
  deriving DecidableEq

def hex (n : ℕ) : String := String.ofList (Nat.toDigits 16 n)

/-- `entry(k).or_insert(v)`. -/
def orInsert (m : List (ℕ × α)) (k : ℕ) (v : α) : List (ℕ × α) :=
  if (m.lookup k).isSome then m else m ++ [(k, v)]

def orInsertAll (m kvs : List (ℕ × α)) : List (ℕ × α) :=
  kvs.foldl (fun m kv => orInsert m kv.1 kv.2) m

/-! ### Base relocations -/

def siteBytes (d : ℕ) (s : Section) (site : ℕ) : List UInt8 :=
  leBytes 4 ((leNat (s.slice site 4) + d) % 2 ^ 32)

def applySites (d : ℕ) : List Section → List ℕ → Except String (List Section × ℕ)
  | ss, [] => .ok (ss, 0)
  | ss, site :: sites =>
    match ss.find? (·.covers site 4) with
    | none => .error ("base relocation at 0x" ++ hex site ++ " lies outside every loaded section")
    | some s => do
      let (ss', n) ← applySites d (write ss site (siteBytes d s site)) sites
      .ok (ss', n + 1)

def applyBaseRelocations (ss : List Section) (sites : List ℕ) (delta : ℤ) :
    Except String (List Section × ℕ) :=
  if delta = 0 then .ok (ss, 0) else applySites (delta % 2 ^ 32).toNat ss sites

/-! ### Constructors and TLS callbacks -/

def byteIs (d : List UInt8) (i : ℕ) (b : UInt8) : Bool := d[i]? == some b

/-- `mov ebx, [list]` and `cmp ebx, -1` at `i`. -/
def isCtorLoad (d : List UInt8) (i : ℕ) : Bool :=
  byteIs d i 0x8b && byteIs d (i + 1) 0x1d && byteIs d (i + 6) 0x83 && byteIs d (i + 7) 0xfb &&
    byteIs d (i + 8) 0xff

/-- The address of the list of constructors, from the routine that walks it. -/
def ctorListAddr (ss : List Section) : Option ℕ :=
  ss.findSome? fun s =>
    if s.executable then
      (((List.range s.data.length).takeWhile (· + 9 ≤ s.data.length)).find?
        (isCtorLoad s.data)).map fun i => leNat ((s.data.drop (i + 2)).take 4)
    else none

/-- `follow_thunk`: the target of a `jmp rel32`. -/
def followThunk (ss : List Section) (va : ℕ) : ℕ :=
  match readN ss va 5 with
  | some (0xE9 :: rel) =>
    (((va : ℤ) + 5 + (BitVec.ofNat 32 (leNat rel)).toInt) % 2 ^ 64).toNat
  | _ => va

/-- The constructors of the list from `a` on; none if one is no code. -/
def ctorsFrom (ss : List Section) : ℕ → ℕ → Option (List ℕ)
  | 0, _ => some []
  | n + 1, a =>
    match readU32 ss a with
    | none => some []
    | some v =>
      if v = 0 then some []
      else if isExecutable ss (followThunk ss v) then
        (ctorsFrom ss n (a + 4)).map (followThunk ss v :: ·)
      else none

def recoverCtorList (p : Program) : List ℕ :=
  if p.bits ≠ 32 then []
  else
    match ctorListAddr p.sections with
    | none => []
    | some a => ((ctorsFrom p.sections 65536 (a + 4)).getD []).reverse

def callbacksFrom (ss : List Section) : ℕ → ℕ → List ℕ
  | 0, _ => []
  | n + 1, a =>
    match readU32 ss a with
    | none => []
    | some v => if v = 0 then [] else v :: callbacksFrom ss n (a + 4)

def readTlsCallbacks (p : Program) : List ℕ :=
  if p.tlsDirVa = 0 then []
  else
    match readU32 p.sections (p.tlsDirVa + 12) with
    | none => []
    | some a => if a = 0 then [] else callbacksFrom p.sections 256 a

/-! ### Merging -/

/-- `(a as i64 + delta) as u64`. -/
def move (delta : ℤ) (a : ℕ) : ℕ := (((a : ℤ) + delta) % 2 ^ 64).toNat

def moveSection (delta : ℤ) (s : Section) : Section := { s with address := move delta s.address }

def moveExport (delta : ℤ) (e : Export) : Export :=
  match e.target with
  | .address va => { e with target := .address (move delta va) }
  | _ => e

def curEnd (ss : List Section) : ℕ := ss.foldl (fun m s => max m s.stop) 0

def overlaps (s p : Section) : Bool := s.address < p.stop && p.address < s.stop

def exportSymbol (e : Export) : Option (ℕ × Symbol) :=
  match e.name, e.target with
  | some n, .address va => some (va, ⟨va, n, true⟩)
  | _, _ => none

def moduleSymbols (dll : Program) (m : LoadedModule) (delta : ℤ) : List (ℕ × Symbol) :=
  m.exports.filterMap exportSymbol ++
    ((if m.initEntry ≠ 0 then
        [(m.initEntry, ⟨m.initEntry, "DllMainCRTStartup_" ++ hex m.initEntry, true⟩)]
      else []) ++
    (m.tlsCallbacks.map (fun cb => (cb, ⟨cb, "TlsCallback_" ++ hex cb, true⟩)) ++
    dll.symbols.map fun (a, sym) => (move delta a, { sym with address := move delta a })))

def moved (delta : ℤ) (m : List (ℕ × α)) : List (ℕ × α) := m.map fun kv => (move delta kv.1, kv.2)

/-- What `merge_modules` returns of a DLL. -/
def loadedModule (name : String) (dll : Program) (newBase : ℕ) (delta : ℤ) : LoadedModule where
  name := name
  exports := dll.exports.map (moveExport delta)
  initEntry := if dll.entry ≠ 0 then move delta dll.entry else 0
  hinstance := newBase
  ctors := (recoverCtorList dll).map (move delta)
  tlsCallbacks := (readTlsCallbacks dll).map (move delta)

def newBase (p : Program) : ℕ := (curEnd p.sections + 0xffff) / 0x10000 * 0x10000

/-- The body of the loop of `merge_modules`. -/
def mergeModule (p : Program) (name : String) (dll : Program) :
    Except String (Program × LoadedModule) := do
  let delta : ℤ := newBase p - dll.imageBase
  let (relocated, _) ← applyBaseRelocations dll.sections dll.baseRelocs delta
  let placed := relocated.map (moveSection delta)
  let m := loadedModule name dll (newBase p) delta
  match placed.find? fun s => p.sections.any (overlaps s) with
  | some s =>
    .error ("merged module " ++ name ++ " section " ++ s.name ++ " overlaps the primary image")
  | none =>
    .ok ({ p with
        symbols := orInsertAll p.symbols (moduleSymbols dll m delta)
        imports := orInsertAll p.imports (moved delta dll.imports)
        peImports := orInsertAll p.peImports (moved delta dll.peImports)
        sections := p.sections ++ placed }, m)

def mergeModules : Program → List (String × Program) → Except String (Program × List LoadedModule)
  | p, [] => .ok (p, [])
  | p, (name, dll) :: dlls => do
    let (p', m) ← mergeModule p name dll
    let (q, ms) ← mergeModules p' dlls
    .ok (q, m :: ms)

theorem of_bind_eq_ok {ε β γ : Type} {x : Except ε β} {f : β → Except ε γ} {c : γ}
    (h : x >>= f = .ok c) : ∃ b, x = .ok b ∧ f b = .ok c := by
  cases x with
  | error e => cases h
  | ok b => exact ⟨b, rfl, h⟩

/-! ### Maps -/

theorem lookup_orInsert (m : List (ℕ × α)) (k : ℕ) (v : α) (i : ℕ) :
    (orInsert m k v).lookup i = (m ++ [(k, v)]).lookup i := by
  rw [orInsert]
  split_ifs with hk
  · obtain ⟨w, hw⟩ := Option.isSome_iff_exists.mp hk
    rw [List.lookup_append]
    by_cases hik : i = k
    · rw [hik, hw, Option.some_or]
    · have hother : [(k, v)].lookup i = none := by
        rw [List.lookup_cons, beq_false_of_ne hik, List.lookup_nil]
      rw [hother, Option.or_none]
  · rfl

theorem lookup_orInsertAll (m kvs : List (ℕ × α)) (i : ℕ) :
    (orInsertAll m kvs).lookup i = (m ++ kvs).lookup i := by
  induction kvs generalizing m with
  | nil => simp [orInsertAll]
  | cons kv kvs ih =>
    have hstep : orInsertAll m (kv :: kvs) = orInsertAll (orInsert m kv.1 kv.2) kvs := rfl
    rw [hstep, ih, List.lookup_append, lookup_orInsert, ← List.lookup_append, List.append_assoc]
    rfl

/-! ### Relocated sections -/

/-- `s'` is `s` with the delta added at the sites, and nowhere else. -/
structure SectionRelocated (d : ℕ) (s : Section) (sites : List ℕ) (s' : Section) : Prop where
  frame : s'.frame = s.frame
  site : ∀ a ∈ sites, s'.slice a 4 = siteBytes d s a
  other : ∀ a n, s.address ≤ a → (∀ x ∈ sites, a + n ≤ x ∨ x + 4 ≤ a) → s'.slice a n = s.slice a n

def Relocated (d : ℕ) : List Section → List ℕ → List Section → Prop
  | [], _, ss' => ss' = []
  | s :: ss, sites, ss' => ∃ s' rest, ss' = s' :: rest ∧
      SectionRelocated d s (sites.filter (s.covers · 4)) s' ∧
      Relocated d ss (sites.filter (fun a => !s.covers a 4)) rest

def patchSite (d : ℕ) (s : Section) (site : ℕ) : Section :=
  s.put site (siteBytes d s site)

@[simp] theorem length_siteBytes (d : ℕ) (s : Section) (site : ℕ) :
    (siteBytes d s site).length = 4 := length_leBytes _ _

section
variable {d site : ℕ} {s : Section} {ss ss' : List Section} {sites : List ℕ}

theorem patchSite_frame (h : s.covers site 4 = true) : (patchSite d s site).frame = s.frame :=
  Section.frame_put (by rwa [length_siteBytes])

theorem covers_congr {s' : Section} (h : s'.frame = s.frame) (a n : ℕ) :
    s'.covers a n = s.covers a n := by
  simp only [Section.frame, Prod.mk.injEq] at h
  rw [Section.covers, Section.stop, h.2.1, h.2.2.1, Section.covers, Section.stop]

theorem sectionRelocated_foldl (hapart : sites.Pairwise (· + 4 ≤ ·))
    (hcov : ∀ a ∈ sites, s.covers a 4 = true) :
    SectionRelocated d s sites (sites.foldl (patchSite d) s) := by
  induction sites generalizing s with
  | nil => exact ⟨rfl, by simp, fun _ _ _ _ => rfl⟩
  | cons x sites ih =>
    obtain ⟨hx, hapart⟩ := List.pairwise_cons.mp hapart
    have hcx := hcov x List.mem_cons_self
    have hframe := patchSite_frame (d := d) hcx
    have hput : s.covers x (siteBytes d s x).length = true := by
      rwa [length_siteBytes]
    obtain ⟨hf, hs, ho⟩ := ih hapart fun a ha => by
      rw [covers_congr hframe]
      exact hcov a (List.mem_cons_of_mem _ ha)
    have haddr : (patchSite d s x).address = s.address := rfl
    rw [List.foldl_cons]
    refine ⟨hf.trans hframe, ?_, ?_⟩
    · intro a ha
      rcases List.mem_cons.mp ha with rfl | ha
      · -- the first site is not touched again
        have hkeep := ho a 4 (by rw [haddr]; exact (Section.covers_iff.mp hcx).1)
          fun y hy => Or.inl (hx y hy)
        rw [hkeep]
        have hself := Section.slice_put hput
        rwa [length_siteBytes] at hself
      · have hold : (patchSite d s x).slice a 4 = s.slice a 4 := by
          have hca := hcov a (List.mem_cons_of_mem _ ha)
          refine Section.slice_put_apart hput (Section.covers_iff.mp hca).1 (Or.inr ?_)
          rw [length_siteBytes]
          exact hx a ha
        rw [hs a ha, siteBytes, hold, siteBytes]
    · intro a n ha hmiss
      rw [ho a n (by rwa [haddr]) fun y hy => hmiss y (List.mem_cons_of_mem _ hy)]
      refine Section.slice_put_apart hput ha ?_
      rw [length_siteBytes]
      exact hmiss x List.mem_cons_self

theorem applySites_cons {n : ℕ} (h : applySites d (s :: ss) sites = .ok (ss', n)) :
    ∃ rest k, ss' = (sites.filter (s.covers · 4)).foldl (patchSite d) s :: rest ∧
      applySites d ss (sites.filter fun a => !s.covers a 4) = .ok (rest, k) := by
  induction sites generalizing s ss ss' n with
  | nil =>
    rw [applySites] at h
    cases h
    exact ⟨ss, 0, rfl, rfl⟩
  | cons x sites ih =>
    by_cases hcov : s.covers x 4 = true
    · have hput : s.covers x (siteBytes d s x).length = true := by
        rwa [length_siteBytes]
      have hfind : (s :: ss).find? (·.covers x 4) = some s := by simp [hcov]
      rw [applySites, hfind] at h
      have hwrite : write (s :: ss) x (siteBytes d s x)
          = patchSite d s x :: ss := by
        rw [write, if_pos hput]
        rfl
      simp only [hwrite] at h
      obtain ⟨⟨r, k⟩, hrec, hok⟩ := of_bind_eq_ok h
      obtain ⟨rfl, -⟩ := Prod.mk.inj (Except.ok.inj hok)
      obtain ⟨rest, j, hr, hrest⟩ := ih hrec
      have hsame : ∀ a, (patchSite d s x).covers a 4 = s.covers a 4 :=
        fun a => covers_congr (patchSite_frame hcov) a 4
      simp only [hsame] at hr hrest
      refine ⟨rest, j, ?_, ?_⟩
      · rw [hr, List.filter_cons_of_pos (p := fun a => s.covers a 4) hcov, List.foldl_cons]
      · rw [List.filter_cons_of_neg (p := fun a => !s.covers a 4) (by simp [hcov])]
        exact hrest
    · rw [List.filter_cons_of_neg (p := fun a => s.covers a 4) hcov,
        List.filter_cons_of_pos (p := fun a => !s.covers a 4) (by simp [hcov])]
      rw [applySites] at h
      cases hfind : ss.find? (·.covers x 4) with
      | none => simp [hcov, hfind] at h
      | some t =>
        have hfind' : (s :: ss).find? (·.covers x 4) = some t := by simp [hcov, hfind]
        have hput : ¬ s.covers x (siteBytes d t x).length = true := by
          rwa [length_siteBytes]
        simp only [hfind', write, if_neg hput] at h
        obtain ⟨⟨r, k⟩, hrec, hok⟩ := of_bind_eq_ok h
        obtain ⟨rfl, -⟩ := Prod.mk.inj (Except.ok.inj hok)
        obtain ⟨rest, j, hr, hrest⟩ := ih hrec
        refine ⟨rest, j + 1, hr, ?_⟩
        rw [applySites, hfind]
        simp only [hrest]
        rfl

theorem relocated_applySites {n : ℕ} (hapart : sites.Pairwise (· + 4 ≤ ·))
    (h : applySites d ss sites = .ok (ss', n)) : Relocated d ss sites ss' := by
  induction ss generalizing sites ss' n with
  | nil =>
    cases sites with
    | nil =>
      rw [applySites] at h
      cases h
      rfl
    | cons x sites => simp [applySites] at h
  | cons s ss ih =>
    obtain ⟨rest, k, rfl, hrest⟩ := applySites_cons h
    exact ⟨_, rest, rfl, sectionRelocated_foldl (hapart.filter _) (by simp),
      ih (hapart.filter _) hrest⟩

theorem relocated_zero (ss : List Section) (sites : List ℕ) : Relocated 0 ss sites ss := by
  induction ss generalizing sites with
  | nil => rfl
  | cons s ss ih =>
    refine ⟨s, ss, rfl, ⟨rfl, ?_, fun _ _ _ _ => rfl⟩, ih _⟩
    intro a ha
    have hcov : s.covers a 4 = true := (List.mem_filter.mp ha).2
    rw [Section.covers_iff] at hcov
    have hlen : (s.slice a 4).length = 4 := by
      rw [Section.slice, List.length_take, List.length_drop]
      omega
    have hlt := leNat_lt (s.slice a 4)
    rw [hlen] at hlt
    have hback := leBytes_leNat (s.slice a 4)
    rw [hlen] at hback
    rw [siteBytes, Nat.add_zero, Nat.mod_eq_of_lt (by simpa using hlt), hback]

/-- **Each site gets the delta once** and every other byte stays, where the sites are
apart. -/
theorem relocated_applyBaseRelocations {delta : ℤ} {n : ℕ}
    (hapart : sites.Pairwise (· + 4 ≤ ·))
    (h : applyBaseRelocations ss sites delta = .ok (ss', n)) :
    Relocated (delta % 2 ^ 32).toNat ss sites ss' := by
  rw [applyBaseRelocations] at h
  split_ifs at h with hzero
  · cases h
    rw [hzero]
    exact relocated_zero ss sites
  · exact relocated_applySites hapart h

theorem applySites_frame {n : ℕ} (h : applySites d ss sites = .ok (ss', n)) :
    ss'.map Section.frame = ss.map Section.frame := by
  induction sites generalizing ss n with
  | nil =>
    rw [applySites] at h
    cases h
    rfl
  | cons x sites ih =>
    rw [applySites] at h
    cases hfind : ss.find? (·.covers x 4) with
    | none => simp [hfind] at h
    | some s =>
      simp only [hfind] at h
      obtain ⟨⟨r, k⟩, hrec, hok⟩ := of_bind_eq_ok h
      obtain ⟨rfl, -⟩ := Prod.mk.inj (Except.ok.inj hok)
      rw [ih hrec, write_frame]

theorem applyBaseRelocations_frame {delta : ℤ} {n : ℕ}
    (h : applyBaseRelocations ss sites delta = .ok (ss', n)) :
    ss'.map Section.frame = ss.map Section.frame := by
  rw [applyBaseRelocations] at h
  split_ifs at h with hzero
  · cases h
    rfl
  · exact applySites_frame h

end

/-! ### One merge -/

def deltaOf (dll : Program) (m : LoadedModule) : ℤ := m.hinstance - dll.imageBase

/-- What merging `dll` into `p` makes of it; `R` are its relocated sections. -/
structure Merged (p dll p' : Program) (name : String) (m : LoadedModule) (R : List Section) :
    Prop where
  module : m = loadedModule name dll (newBase p) (deltaOf dll m)
  relocated : ∃ n, applyBaseRelocations dll.sections dll.baseRelocs (deltaOf dll m) = .ok (R, n)
  sections : p'.sections = p.sections ++ R.map (moveSection (deltaOf dll m))
  apart : ∀ s ∈ R.map (moveSection (deltaOf dll m)), ∀ t ∈ p.sections, overlaps s t = false
  symbols : p'.symbols = orInsertAll p.symbols (moduleSymbols dll m (deltaOf dll m))
  imports : p'.imports = orInsertAll p.imports (moved (deltaOf dll m) dll.imports)
  peImports : p'.peImports = orInsertAll p.peImports (moved (deltaOf dll m) dll.peImports)

theorem mergeModule_ok {p dll p' : Program} {name : String} {m : LoadedModule}
    (h : mergeModule p name dll = .ok (p', m)) : ∃ R, Merged p dll p' name m R := by
  rw [mergeModule] at h
  set delta : ℤ := newBase p - dll.imageBase
  obtain ⟨⟨R, n⟩, hrel, hok⟩ := of_bind_eq_ok h
  cases hfind : (R.map (moveSection delta)).find? fun s => p.sections.any (overlaps s) with
  | some s => simp [hfind] at hok
  | none =>
    simp only [hfind, Except.ok.injEq, Prod.mk.injEq] at hok
    obtain ⟨hp, hm⟩ := hok
    have hd : deltaOf dll m = delta := by
      rw [← hm]
      rfl
    refine ⟨R, ⟨by rw [hd, hm], ⟨n, by rw [hd, hrel]⟩, by rw [hd, ← hp], ?_,
      by rw [hd, ← hp, hm], by rw [hd, ← hp], by rw [hd, ← hp]⟩⟩
    intro s hs t ht
    rw [hd] at hs
    have hno := List.find?_eq_none.mp hfind s hs
    simp only [List.any_eq_true, not_exists, not_and, Bool.not_eq_true] at hno
    exact hno t ht

/-! ### Moved sections -/

def Fits (delta : ℤ) (s : Section) : Prop := 0 ≤ s.address + delta ∧ s.stop + delta ≤ 2 ^ 64

/-- No byte of `s` is one of `t`. -/
def Apart (s t : Section) : Prop := ∀ a, s.contains a = true → t.contains a = false

theorem apart_of_not_overlaps {s t : Section} (h : overlaps s t = false) : Apart t s := by
  intro a ha
  by_contra hs
  have hs' : s.contains a = true := by simpa using hs
  rw [Section.contains_iff] at ha hs'
  have hover : overlaps s t = true := by
    rw [overlaps, Bool.and_eq_true, decide_eq_true_eq, decide_eq_true_eq, Section.stop,
      Section.stop]
    omega
  simp [hover] at h

theorem move_eq {delta : ℤ} {a : ℕ} (h0 : 0 ≤ (a : ℤ) + delta) (h1 : (a : ℤ) + delta < 2 ^ 64) :
    (move delta a : ℤ) = a + delta := by
  rw [move, Int.emod_eq_of_lt h0 h1]
  exact Int.toNat_of_nonneg h0

theorem contains_moveSection {delta : ℤ} {s t : Section} {a : ℕ} (hs : Fits delta s)
    (ht : Fits delta t) (ha : s.contains a = true) :
    (moveSection delta t).contains (move delta a) = t.contains a := by
  rw [Section.contains_iff] at ha
  rw [Fits, Section.stop] at hs ht
  push_cast at hs ht
  have hmove : (move delta a : ℤ) = a + delta := move_eq (by omega) (by omega)
  by_cases hempty : t.data.length = 0
  · -- a section without bytes contains nothing, wherever it is moved
    have hl : (moveSection delta t).contains (move delta a) = false := by
      rw [Bool.eq_false_iff, Ne, Section.contains_iff]
      show ¬ (move delta t.address ≤ move delta a ∧ move delta a < move delta t.address +
        t.data.length)
      omega
    have hr : t.contains a = false := by
      rw [Bool.eq_false_iff, Ne, Section.contains_iff]
      omega
    rw [hl, hr]
  · have haddr : (move delta t.address : ℤ) = t.address + delta := move_eq (by omega) (by omega)
    rw [Bool.eq_iff_iff, Section.contains_iff, Section.contains_iff]
    show move delta t.address ≤ move delta a ∧ move delta a < move delta t.address + t.data.length
      ↔ _
    omega

theorem sectionAt_moved {delta : ℤ} {before R after : List Section} {a : ℕ} {s : Section}
    (hfits : ∀ t ∈ R, Fits delta t)
    (hapart : ∀ t ∈ before, ∀ r ∈ R.map (moveSection delta), Apart t r)
    (h : sectionAt R a = some s) :
    sectionAt (before ++ (R.map (moveSection delta) ++ after)) (move delta a)
      = some (moveSection delta s) := by
  have hmem : s ∈ R := List.mem_of_find?_eq_some h
  have hs : s.contains a = true := by
    rw [sectionAt] at h
    simpa using List.find?_some h
  have hcont : ∀ t ∈ R, (moveSection delta t).contains (move delta a) = t.contains a :=
    fun t ht => contains_moveSection (hfits s hmem) (hfits t ht) hs
  have hself : (moveSection delta s).contains (move delta a) = true := by
    rw [hcont s hmem, hs]
  have hnone : before.find? (·.contains (move delta a)) = none := by
    refine List.find?_eq_none.mpr fun t ht hin => ?_
    have hno := hapart t ht (moveSection delta s) (List.mem_map_of_mem hmem) _ hin
    rw [hself] at hno
    cases hno
  have hR : (R.map (moveSection delta)).find? (·.contains (move delta a))
      = some (moveSection delta s) := by
    rw [List.find?_map]
    have hsame : R.find? ((fun t => t.contains (move delta a)) ∘ moveSection delta)
        = R.find? (·.contains a) := List.find?_congr hcont
    rw [hsame]
    have hfind : R.find? (·.contains a) = some s := h
    rw [hfind]
    rfl
  rw [sectionAt, List.find?_append, hnone, Option.none_or, List.find?_append, hR, Option.some_or]

/-! ### All merges -/

/-- What a merged module is in the program at the end; `part` are its sections there. -/
structure ModuleRebased (final dll : Program) (name : String) (m : LoadedModule)
    (part : List Section) : Prop where
  base : m.hinstance % 0x10000 = 0
  /-- Exports, entry, constructors and callbacks are at the moved addresses. -/
  module : m = loadedModule name dll m.hinstance (deltaOf dll m)
  /-- Its sections are its own, relocated and moved, and what was at an address is at the
  moved one. -/
  bytes : ∃ R, part = R.map (moveSection (deltaOf dll m)) ∧
    (dll.baseRelocs.Pairwise (· + 4 ≤ ·) →
      Relocated (deltaOf dll m % 2 ^ 32).toNat dll.sections dll.baseRelocs R) ∧
    ((∀ s ∈ dll.sections, Fits (deltaOf dll m) s) → ∀ a s, sectionAt R a = some s →
      sectionAt final.sections (move (deltaOf dll m) a) = some (moveSection (deltaOf dll m) s))

def added (f : Program → LoadedModule → List (ℕ × α)) (dlls : List (String × Program))
    (ms : List LoadedModule) : List (ℕ × α) :=
  (List.zipWith (fun d m => f d.2 m) dlls ms).flatten

theorem Merged.fits {p dll p' : Program} {name : String} {m : LoadedModule} {R : List Section}
    (h : Merged p dll p' name m R) (hfits : ∀ s ∈ dll.sections, Fits (deltaOf dll m) s) :
    ∀ s ∈ R, Fits (deltaOf dll m) s := by
  intro s hs
  obtain ⟨n, hrel⟩ := h.relocated
  have hframe := applyBaseRelocations_frame hrel
  have hmem : s.frame ∈ dll.sections.map Section.frame := by
    rw [← hframe]
    exact List.mem_map_of_mem hs
  obtain ⟨t, ht, heq⟩ := List.mem_map.mp hmem
  have hfit := hfits t ht
  simp only [Section.frame, Prod.mk.injEq] at heq
  rw [Fits, Section.stop, heq.2.1, heq.2.2.1] at hfit
  rw [Fits, Section.stop]
  exact hfit

theorem Merged.rebased {p dll p' final : Program} {name : String} {m : LoadedModule}
    {R after : List Section} (h : Merged p dll p' name m R)
    (hfinal : final.sections = p.sections ++ (R.map (moveSection (deltaOf dll m)) ++ after)) :
    ModuleRebased final dll name m (R.map (moveSection (deltaOf dll m))) := by
  have hbase : m.hinstance = newBase p := by
    rw [h.module]
    rfl
  obtain ⟨n, hrel⟩ := h.relocated
  refine ⟨?_, ?_, R, rfl, fun hapart => relocated_applyBaseRelocations hapart hrel, ?_⟩
  · rw [hbase, newBase]
    exact Nat.mul_mod_left _ _
  · rw [hbase]
    exact h.module
  · intro hfits a s ha
    rw [hfinal]
    exact sectionAt_moved (h.fits hfits)
      (fun t ht r hr => apart_of_not_overlaps (h.apart r hr t ht)) ha

/-- **Merging moves every module as a whole**: the modules' bytes are apart; maps keep
their entries and get those of the modules at the moved addresses; and each module is
relocated and moved to its base. -/
theorem mergeModules_rebases (p : Program) (dlls : List (String × Program)) (final : Program)
    (ms : List LoadedModule) (h : mergeModules p dlls = .ok (final, ms)) :
    ∃ parts : List (List Section),
      final.sections = p.sections ++ parts.flatten ∧
      (p.sections :: parts).Pairwise (fun A B => ∀ s ∈ A, ∀ t ∈ B, Apart s t) ∧
      (∀ k, final.symbols.lookup k = (p.symbols ++
        added (fun dll m => moduleSymbols dll m (deltaOf dll m)) dlls ms).lookup k) ∧
      (∀ k, final.imports.lookup k = (p.imports ++
        added (fun dll m => moved (deltaOf dll m) dll.imports) dlls ms).lookup k) ∧
      (∀ k, final.peImports.lookup k = (p.peImports ++
        added (fun dll m => moved (deltaOf dll m) dll.peImports) dlls ms).lookup k) ∧
      ∀ (i : ℕ) (name : String) (dll : Program), dlls[i]? = some (name, dll) →
        ∃ (m : LoadedModule) (part : List Section), ms[i]? = some m ∧ parts[i]? = some part ∧ ModuleRebased final dll name m part := by
  induction dlls generalizing p ms with
  | nil =>
    rw [mergeModules] at h
    cases h
    exact ⟨[], by simp, by simp, by simp [added], by simp [added], by simp [added], by simp⟩
  | cons d dlls ih =>
    obtain ⟨name, dll⟩ := d
    rw [mergeModules] at h
    obtain ⟨⟨p₁, m⟩, hone, hok⟩ := of_bind_eq_ok h
    obtain ⟨⟨q, ms'⟩, hrest, hok⟩ := of_bind_eq_ok hok
    obtain ⟨rfl, rfl⟩ := Prod.mk.inj (Except.ok.inj hok)
    obtain ⟨R, hm⟩ := mergeModule_ok hone
    obtain ⟨parts, hsec, hpair, hsym, himp, hpe, hmods⟩ := ih p₁ ms' hrest
    set part := R.map (moveSection (deltaOf dll m)) with hpart
    have hsections : q.sections = p.sections ++ (part ++ parts.flatten) := by
      rw [hsec, hm.sections, List.append_assoc]
    -- the new part is apart from the sections before, as checked
    have hnew : ∀ s ∈ p.sections, ∀ t ∈ part, Apart s t :=
      fun s hs t ht => apart_of_not_overlaps (hm.apart t ht s hs)
    obtain ⟨hfirst, hlater⟩ := List.pairwise_cons.mp hpair
    rw [hm.sections] at hfirst
    refine ⟨part :: parts, by rw [hsections, List.flatten_cons], ?_, ?_, ?_, ?_, ?_⟩
    · refine List.pairwise_cons.mpr ⟨?_, List.pairwise_cons.mpr ⟨?_, hlater⟩⟩
      · intro B hB s hs t ht
        rcases List.mem_cons.mp hB with rfl | hB
        · exact hnew s hs t ht
        · exact hfirst B hB s (List.mem_append_left _ hs) t ht
      · intro B hB s hs t ht
        exact hfirst B hB s (List.mem_append_right _ hs) t ht
    · intro k
      rw [hsym, List.lookup_append, hm.symbols, lookup_orInsertAll, ← List.lookup_append,
        List.append_assoc]
      rfl
    · intro k
      rw [himp, List.lookup_append, hm.imports, lookup_orInsertAll, ← List.lookup_append,
        List.append_assoc]
      rfl
    · intro k
      rw [hpe, List.lookup_append, hm.peImports, lookup_orInsertAll, ← List.lookup_append,
        List.append_assoc]
      rfl
    · intro i name' dll' hi
      cases i with
      | zero =>
        obtain ⟨rfl, rfl⟩ : name = name' ∧ dll = dll' := by simpa using hi
        exact ⟨m, part, rfl, rfl, hm.rebased hsections⟩
      | succ i => exact hmods i name' dll' (by simpa using hi)

/-! ### Sites that overlap, and bytes without data -/

def tinyApp : Program where
  bits := 32
  entry := 0
  imageBase := 0
  tlsDirVa := 0
  exports := []
  sections := [⟨".data", 0, [0], false⟩]
  symbols := []
  imports := []
  peImports := []
  baseRelocs := []

def tinyDll (sites : List ℕ) : Program :=
  { tinyApp with sections := [⟨".data", 0, List.replicate 8 0, false⟩], baseRelocs := sites }

def tinyModule : LoadedModule where
  name := "tiny.dll"
  exports := []
  initEntry := 0
  hinstance := 0x10000
  ctors := []
  tlsCallbacks := []

/-- The program with the DLL at `0x10000`. -/
def tinyMerged (data : List UInt8) : Program :=
  { tinyApp with sections := tinyApp.sections ++ [⟨".data", 0x10000, data, false⟩] }

theorem mergeModules_rebases_tiny :
    ∃ part, ModuleRebased (tinyMerged [0, 0, 1, 0, 0, 0, 1, 0]) (tinyDll [0, 4]) "tiny.dll"
      tinyModule part := by
  have hmerge : mergeModules tinyApp [("tiny.dll", tinyDll [0, 4])]
      = .ok (tinyMerged [0, 0, 1, 0, 0, 0, 1, 0], [tinyModule]) := by rfl
  obtain ⟨parts, -, -, -, -, -, hmods⟩ := mergeModules_rebases _ _ _ _ hmerge
  obtain ⟨m, part, hm, -, hrebased⟩ := hmods 0 "tiny.dll" (tinyDll [0, 4]) rfl
  have hm' : tinyModule = m := by simpa using hm
  rw [← hm'] at hrebased
  exact ⟨part, hrebased⟩

def SitesExact (dll final : Program) (m : LoadedModule) : Prop :=
  ∀ site ∈ dll.baseRelocs, readN final.sections (move (deltaOf dll m) site) 4 =
    (readN dll.sections site 4).map fun bs =>
      leBytes 4 ((leNat bs + (deltaOf dll m % 2 ^ 32).toNat) % 2 ^ 32)

/-- No merged section meets a section of the program or the `tail` bytes after its data. -/
def TailsApart (tail : Section → ℕ) (p final : Program) : Prop :=
  ∀ s ∈ p.sections, ∀ t ∈ final.sections.drop p.sections.length,
    s.stop + tail s ≤ t.address ∨ t.stop ≤ s.address

/-- **Overlapping sites are both patched**, and **bytes without data are not kept free**:
a section's place ends where its data does. -/
theorem not_mergeModules_exact :
    (¬ ∀ (p dll final : Program) (name : String) (m : LoadedModule),
      mergeModules p [(name, dll)] = .ok (final, [m]) → SitesExact dll final m) ∧
    ¬ ∀ (tail : Section → ℕ) (p dll final : Program) (name : String) (m : LoadedModule),
      mergeModules p [(name, dll)] = .ok (final, [m]) → TailsApart tail p final := by
  constructor
  · intro h
    have hsite := h tinyApp (tinyDll [0, 2]) (tinyMerged [0, 0, 1, 0, 1, 0, 0, 0]) "tiny.dll"
      tinyModule (by rfl) 2 (by decide)
    revert hsite
    decide
  · intro h
    have htail := h (fun _ => 0x20000) tinyApp (tinyDll [0, 4])
      (tinyMerged [0, 0, 1, 0, 0, 0, 1, 0]) "tiny.dll" tinyModule (by rfl)
      ⟨".data", 0, [0], false⟩ (by decide) ⟨".data", 0x10000, [0, 0, 1, 0, 0, 0, 1, 0], false⟩
      (by decide)
    revert htail
    decide

end Aret.Merge
