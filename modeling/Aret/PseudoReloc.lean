/-
Static pseudo-relocation beside mingw's relocator.

`apply_pseudo_relocs_for_module` finds the list of a module by its header, takes items
from it up to a word that is no size, works the new values out from the image as it is,
and then writes them.

* `applyPseudoRelocsForModule_exact` — a target that no other one meets holds what
  the relocator leaves there, and bytes of no target stay.
-/
import Aret.Image

namespace Aret.PseudoReloc

open Image

/-! ### The list -/

/-- An item: the slot of the import, what to patch, and its size in bits. -/
structure Item where
  sym : ℕ
  target : ℕ
  flags : ℕ

def isSize (flags : ℕ) : Bool := flags == 8 || flags == 16 || flags == 32

def u32At (d : List UInt8) (i : ℕ) : ℕ := leNat ((d.drop i).take 4)

section
variable (ss : List Section) (base : ℕ)

def rvaInImage (rva : ℕ) : Bool := (sectionAt ss (base + rva)).isSome

/-- A header of version 2 at `i`, before what could be an item. -/
def isHeader (d : List UInt8) (i : ℕ) : Bool :=
  ((d.drop i).take 8).all (· == 0) && u32At d (i + 8) == 1 &&
    (isSize (u32At d (i + 20)) && rvaInImage ss base (u32At d (i + 12)) &&
      rvaInImage ss base (u32At d (i + 16)))

def findHeader (d : List UInt8) : Option ℕ :=
  (((List.range d.length).map (4 * ·)).takeWhile (· + 24 ≤ d.length)).find? (isHeader ss base d)

def findList (hi : ℕ) : Option (ℕ × ℕ) :=
  ss.findSome? fun s =>
    if s.executable || s.address < base || hi ≤ s.address then none
    else (findHeader ss base s.data).map fun i => (s.address + (i + 12), s.stop)

def itemAt (va : ℕ) : Option Item := do
  let sym ← readU32 ss va
  let target ← readU32 ss (va + 4)
  let flags ← readU32 ss (va + 8)
  some ⟨sym, target, flags⟩

/-- The items from `va` on, as long as they have a size, at most `n`. -/
def items (va : ℕ) : ℕ → List Item
  | 0 => []
  | n + 1 =>
    match itemAt ss va with
    | some e => if isSize e.flags then e :: items (va + 12) n else []
    | none => []

/-! ### The patches -/

structure Patch where
  va : ℕ
  new : ℕ
  bytes : ℕ

def wrappingAdd (a b : ℕ) : ℕ := (a + b) % 2 ^ 64

def wrappingSub (a b : ℕ) : ℕ := (a + (2 ^ 64 - b % 2 ^ 64)) % 2 ^ 64

/-- The value an item's target gets in place of `old`. -/
def newValue (old exportVa slotVa bits : ℕ) : ℕ :=
  wrappingAdd old (wrappingSub exportVa slotVa) % 2 ^ bits

/-- What an item patches: nothing if its slot is not resolved, and no data if the module
runs its relocator. -/
def patchOf (runsRelocator : Bool) (resolved : List (ℕ × ℕ)) (e : Item) : Option Patch :=
  match resolved.lookup (base + e.sym) with
  | none => none
  | some exportVa =>
    if runsRelocator && !isExecutable ss (base + e.target) then none
    else (readN ss (base + e.target) (e.flags / 8)).map fun old =>
      ⟨base + e.target, newValue (leNat old) exportVa (base + e.sym) e.flags, e.flags / 8⟩

def Patch.apply (ss : List Section) (p : Patch) : List Section :=
  write ss p.va (leBytes p.bytes p.new)

def applyPseudoRelocsForModule (hi : ℕ) (runsRelocator : Bool) (resolved : List (ℕ × ℕ)) :
    List Section :=
  match findList ss base hi with
  | none => ss
  | some (va, stop) =>
    ((items ss va ((stop - va) / 12)).filterMap (patchOf ss base runsRelocator resolved)).foldl
      Patch.apply ss

end

def applyModules (relocatorBases : List ℕ) (resolved : List (ℕ × ℕ)) :
    List ℕ → List Section → List Section
  | [], ss => ss
  | base :: bases, ss =>
    applyModules relocatorBases resolved bases
      (applyPseudoRelocsForModule ss base (bases.headD (2 ^ 64 - 1))
        (relocatorBases.contains base) resolved)

def applyRuntimePseudoRelocs (ss : List Section) (moduleBases relocatorBases : List ℕ)
    (resolved : List (ℕ × ℕ)) : List Section :=
  if resolved.isEmpty then ss
  else applyModules relocatorBases resolved moduleBases.mergeSort.dedup ss

/-! ### The relocator -/

section
variable (base : ℕ) (resolved : List (ℕ × ℕ))

/-- The relocator's step: the value at the target gets the word of the slot, which the
loader has set to the export, less the slot's address.  An item with another slot is
left out. -/
def relocate (ss : List Section) (e : Item) : List Section :=
  match resolved.lookup (base + e.sym), readN ss (base + e.target) (e.flags / 8) with
  | some word, some old =>
    write ss (base + e.target) (leBytes (e.flags / 8)
      (((leNat old : ℤ) + word - (base + e.sym : ℕ)) % 2 ^ e.flags).toNat)
  | _, _ => ss

/-- The relocator on the `n` items at `va`, each read when it is its turn. -/
def relocator : ℕ → ℕ → List Section → List Section
  | 0, _, ss => ss
  | n + 1, va, ss =>
    relocator n (va + 12) (((itemAt ss va).map (relocate base resolved ss)).getD ss)

def Resolved (e : Item) : Prop := (resolved.lookup (base + e.sym)).isSome

def Owned (ss : List Section) (runsRelocator : Bool) (e : Item) : Prop :=
  runsRelocator = true → isExecutable ss (base + e.target) = true

/-- The `n` bytes at `a` are none of the item's target. -/
def Misses (e : Item) (a n : ℕ) : Prop :=
  a + n ≤ base + e.target ∨ base + e.target + e.flags / 8 ≤ a

end

/-- The items that stand at `va`. -/
def ItemsAt (ss : List Section) (va : ℕ) : List Item → Prop
  | [] => True
  | e :: es => itemAt ss va = some e ∧ ItemsAt ss (va + 12) es

/-! ### The end of the list -/

section
variable {ss : List Section} {base hi va stop : ℕ}

theorem itemsAt_items (va n : ℕ) : ItemsAt ss va (items ss va n) := by
  induction n generalizing va with
  | zero => exact trivial
  | succ n ih =>
    rw [items]
    cases he : itemAt ss va with
    | none => exact trivial
    | some e =>
      by_cases hsize : isSize e.flags = true
      · simp only [hsize, if_true]
        exact ⟨he, ih (va + 12)⟩
      · simp only [hsize]
        exact trivial

theorem isSize_of_mem_items {va n : ℕ} {e : Item} (h : e ∈ items ss va n) :
    isSize e.flags = true := by
  induction n generalizing va with
  | zero => simp [items] at h
  | succ n ih =>
    rw [items] at h
    cases he : itemAt ss va with
    | none => simp [he] at h
    | some e' =>
      by_cases hsize : isSize e'.flags = true
      · simp only [he, hsize, if_true, List.mem_cons] at h
        rcases h with rfl | h
        · exact hsize
        · exact ih h
      · simp [he, hsize] at h

theorem length_items_le (va n : ℕ) : (items ss va n).length ≤ n := by
  induction n generalizing va with
  | zero => simp [items]
  | succ n ih =>
    rw [items]
    cases itemAt ss va with
    | none => simp
    | some e =>
      by_cases hsize : isSize e.flags = true
      · simp only [hsize, if_true, List.length_cons]
        exact Nat.succ_le_succ (ih (va + 12))
      · simp [hsize]

/-- **The end of the list is inferred**: it is the first item without a size. -/
theorem items_maximal {va n : ℕ} {e : Item} (hlt : (items ss va n).length < n)
    (he : itemAt ss (va + 12 * (items ss va n).length) = some e) : isSize e.flags = false := by
  induction n generalizing va with
  | zero => simp at hlt
  | succ n ih =>
    cases hva : itemAt ss va with
    | none =>
      have hnil : items ss va (n + 1) = [] := by rw [items, hva]
      rw [hnil] at he
      simp [hva] at he
    | some e' =>
      by_cases hsize : isSize e'.flags = true
      · have hcons : items ss va (n + 1) = e' :: items ss (va + 12) n := by
          rw [items, hva]
          simp [hsize]
        rw [hcons, List.length_cons] at hlt he
        have hshift : va + 12 * ((items ss (va + 12) n).length + 1)
            = va + 12 + 12 * (items ss (va + 12) n).length := by omega
        rw [hshift] at he
        exact ih (by omega) he
      · have hnil : items ss va (n + 1) = [] := by
          rw [items, hva]
          simp [hsize]
        rw [hnil] at he
        have heq : e' = e := by simpa [hva] using he
        rw [← heq]
        simpa using hsize

theorem findHeader_le {d : List UInt8} {i : ℕ} (h : findHeader ss base d = some i) :
    i + 24 ≤ d.length := by
  have hmem := List.mem_of_find?_eq_some h
  simpa using List.mem_takeWhile_imp hmem

theorem findList_le (h : findList ss base hi = some (va, stop)) : va ≤ stop := by
  obtain ⟨s, -, hs⟩ := List.exists_of_findSome?_eq_some h
  split_ifs at hs
  obtain ⟨i, hi, heq⟩ := Option.map_eq_some_iff.mp hs
  have hle := findHeader_le hi
  cases heq
  rw [Section.stop]
  omega

end

/-! ### Frames -/

section
variable {ss : List Section} {base va a n : ℕ} {resolved : List (ℕ × ℕ)} {runsRelocator : Bool}
variable {e : Item} {es : List Item}

theorem readN_relocate (h : Resolved base resolved e → Misses base e a n) :
    readN (relocate base resolved ss e) a n = readN ss a n := by
  rw [relocate]
  cases hword : resolved.lookup (base + e.sym) with
  | none => rfl
  | some word =>
    cases readN ss (base + e.target) (e.flags / 8) with
    | none => rfl
    | some old =>
      have hmiss : Misses base e a n := h (by rw [Resolved, hword]; rfl)
      apply readN_write_apart
      rw [length_leBytes]
      exact hmiss

theorem readN_foldl_relocate (h : ∀ e ∈ es, Resolved base resolved e → Misses base e a n) :
    readN (es.foldl (relocate base resolved) ss) a n = readN ss a n := by
  induction es generalizing ss with
  | nil => rfl
  | cons e es ih =>
    rw [List.foldl_cons, ih fun e he => h e (List.mem_cons_of_mem _ he),
      readN_relocate (h e List.mem_cons_self)]

theorem patchOf_eq_some {p : Patch} (h : patchOf ss base runsRelocator resolved e = some p) :
    ∃ word old, resolved.lookup (base + e.sym) = some word ∧ Owned base ss runsRelocator e ∧
      readN ss (base + e.target) (e.flags / 8) = some old ∧
      p = ⟨base + e.target, newValue (leNat old) word (base + e.sym) e.flags, e.flags / 8⟩ := by
  rw [patchOf] at h
  cases hword : resolved.lookup (base + e.sym) with
  | none => simp [hword] at h
  | some word =>
    simp only [hword] at h
    split_ifs at h with hskip
    obtain ⟨old, hold, rfl⟩ := Option.map_eq_some_iff.mp h
    refine ⟨word, old, rfl, ?_, hold, rfl⟩
    intro hruns
    simpa [hruns] using hskip

theorem readN_foldl_patches {image : List Section}
    (h : ∀ e ∈ es, Resolved base resolved e → Owned base ss runsRelocator e → Misses base e a n) :
    readN ((es.filterMap (patchOf ss base runsRelocator resolved)).foldl Patch.apply image) a n
      = readN image a n := by
  induction es generalizing image with
  | nil => rfl
  | cons e es ih =>
    have htail := fun e he => h e (List.mem_cons_of_mem _ he)
    cases hp : patchOf ss base runsRelocator resolved e with
    | none =>
      rw [List.filterMap_cons_none hp]
      exact ih htail
    | some p =>
      obtain ⟨word, old, hword, hown, -, rfl⟩ := patchOf_eq_some hp
      have hmiss := h e List.mem_cons_self (by rw [Resolved, hword]; rfl) hown
      rw [List.filterMap_cons_some hp, List.foldl_cons, ih htail]
      apply readN_write_apart
      rw [length_leBytes]
      exact hmiss

/-! ### The relocator's list -/

theorem itemAt_congr {image : List Section} (h : ∀ i, i + 4 ≤ 12 →
    readN image (va + i) 4 = readN ss (va + i) 4) : itemAt image va = itemAt ss va := by
  have h0 : readU32 image va = readU32 ss va := by
    rw [readU32, readU32]
    exact congrArg (Option.map leNat) (h 0 (by omega))
  rw [itemAt, itemAt, h0, readU32, readU32, h 4 (by omega), readU32, readU32, h 8 (by omega)]
  rfl

theorem ItemsAt.congr {image : List Section} (h : ∀ i, i + 4 ≤ 12 * es.length →
    readN image (va + i) 4 = readN ss (va + i) 4) (hes : ItemsAt ss va es) :
    ItemsAt image va es := by
  induction es generalizing va with
  | nil => exact trivial
  | cons e es ih =>
    rw [List.length_cons] at h
    refine ⟨?_, ih (fun i hi => ?_) hes.2⟩
    · rw [itemAt_congr fun i hi => h i (by omega)]
      exact hes.1
    · rw [add_assoc]
      exact h (12 + i) (by omega)

/-- **The relocator reads its list as it was**, when no target it writes meets it. -/
theorem relocator_eq (hes : ItemsAt ss va es)
    (h : ∀ e ∈ es, Resolved base resolved e → Misses base e va (12 * es.length)) :
    relocator base resolved es.length va ss = es.foldl (relocate base resolved) ss := by
  induction es generalizing va ss with
  | nil => rfl
  | cons e es ih =>
    rw [List.length_cons] at h
    rw [List.length_cons, relocator, hes.1, List.foldl_cons]
    apply ih
    · refine hes.2.congr fun i hi => readN_relocate fun hr => ?_
      have hmiss := h e List.mem_cons_self hr
      rw [Misses] at hmiss ⊢
      omega
    · intro e' he' hr
      have hmiss := h e' (List.mem_cons_of_mem _ he') hr
      rw [Misses] at hmiss ⊢
      omega

/-! ### The value -/

theorem wrappingSub_modEq (a b : ℕ) : (wrappingSub a b : ℤ) ≡ a - b [ZMOD 2 ^ 64] := by
  have hlt : b % 2 ^ 64 ≤ 2 ^ 64 := (Nat.mod_lt _ (by norm_num)).le
  have hb : (b : ℤ) % 2 ^ 64 ≡ b [ZMOD 2 ^ 64] := Int.mod_modEq _ _
  have hcast : (wrappingSub a b : ℤ) = ((a : ℤ) + (2 ^ 64 - (b : ℤ) % 2 ^ 64)) % 2 ^ 64 := by
    rw [wrappingSub, Int.natCast_mod, Nat.cast_add, Nat.cast_sub hlt, Int.natCast_mod]
    norm_num
  rw [hcast]
  calc ((a : ℤ) + (2 ^ 64 - (b : ℤ) % 2 ^ 64)) % 2 ^ 64
      ≡ a + (2 ^ 64 - (b : ℤ) % 2 ^ 64) [ZMOD 2 ^ 64] := Int.mod_modEq _ _
    _ ≡ a + (2 ^ 64 - b) [ZMOD 2 ^ 64] := (Int.ModEq.refl _).add ((Int.ModEq.refl _).sub hb)
    _ ≡ a - b [ZMOD 2 ^ 64] := by
      rw [Int.modEq_iff_dvd]
      exact ⟨-1, by ring⟩

theorem newValue_eq (old word slot : ℕ) {bits : ℕ} (h : bits ≤ 64) :
    newValue old word slot bits = (((old : ℤ) + word - slot) % 2 ^ bits).toNat := by
  have hdvd : (2 : ℤ) ^ bits ∣ 2 ^ 64 := pow_dvd_pow 2 h
  have hsum : (wrappingAdd old (wrappingSub word slot) : ℤ) ≡ old + word - slot [ZMOD 2 ^ 64] := by
    rw [wrappingAdd]
    push_cast
    calc ((old : ℤ) + wrappingSub word slot) % 2 ^ 64
        ≡ old + wrappingSub word slot [ZMOD 2 ^ 64] := Int.mod_modEq _ _
      _ ≡ old + (word - slot) [ZMOD 2 ^ 64] := (Int.ModEq.refl _).add (wrappingSub_modEq word slot)
      _ = old + word - slot := by ring
  have hmod := hsum.of_dvd hdvd
  rw [Int.ModEq] at hmod
  rw [newValue, ← hmod]
  norm_cast

end

/-! ### Exactness -/

section
variable {ss : List Section} {base : ℕ} {resolved : List (ℕ × ℕ)} {runsRelocator : Bool}
variable {e : Item} {pre post : List Item}

theorem isSize_bounds {bits : ℕ} (h : isSize bits = true) :
    bits ≤ 64 ∧ 0 < bits / 8 ∧ 256 ^ (bits / 8) = 2 ^ bits := by
  simp only [isSize, Bool.or_eq_true, beq_iff_eq] at h
  rcases h with (rfl | rfl) | rfl <;> norm_num

theorem readN_relocate_self {image : List Section} {word : ℕ} {old : List UInt8}
    (hsize : isSize e.flags = true) (hword : resolved.lookup (base + e.sym) = some word)
    (hold : readN image (base + e.target) (e.flags / 8) = some old) :
    readN (relocate base resolved image e) (base + e.target) (e.flags / 8)
      = some (leBytes (e.flags / 8) (newValue (leNat old) word (base + e.sym) e.flags)) := by
  obtain ⟨hle, hpos, -⟩ := isSize_bounds hsize
  have hval := newValue_eq (leNat old) word (base + e.sym) hle
  set bs := leBytes (e.flags / 8) (newValue (leNat old) word (base + e.sym) e.flags) with hbs
  have hlen : bs.length = e.flags / 8 := length_leBytes _ _
  have hne : bs ≠ [] := by
    rw [← List.length_pos_iff, hlen]
    exact hpos
  have hwrite : relocate base resolved image e = write image (base + e.target) bs := by
    rw [relocate, hword, hold, hbs, hval]
  have hread : (readN image (base + e.target) bs.length).isSome := by
    rw [hlen, hold]
    rfl
  rw [hwrite, ← hlen]
  exact readN_write hne hread

theorem readN_target (hsize : isSize e.flags = true) (hr : Resolved base resolved e)
    (hown : Owned base ss runsRelocator e)
    (hapart : ∀ e' ∈ pre ++ post, Resolved base resolved e' →
      Misses base e' (base + e.target) (e.flags / 8)) :
    readN (((pre ++ e :: post).filterMap (patchOf ss base runsRelocator resolved)).foldl
        Patch.apply ss) (base + e.target) (e.flags / 8)
      = readN ((pre ++ e :: post).foldl (relocate base resolved) ss)
        (base + e.target) (e.flags / 8) := by
  have hpre := fun e' he' => hapart e' (List.mem_append_left _ he')
  have hpost := fun e' he' => hapart e' (List.mem_append_right _ he')
  obtain ⟨word, hword⟩ := Option.isSome_iff_exists.mp hr
  have hskip : (runsRelocator && !isExecutable ss (base + e.target)) = false := by
    cases hruns : runsRelocator with
    | false => rfl
    | true => simp [hown hruns]
  have hpatch : patchOf ss base runsRelocator resolved e =
      (readN ss (base + e.target) (e.flags / 8)).map fun old =>
        ⟨base + e.target, newValue (leNat old) word (base + e.sym) e.flags, e.flags / 8⟩ := by
    rw [patchOf, hword]
    simp [hskip]
  rw [List.filterMap_append, List.foldl_append, List.foldl_append, List.foldl_cons,
    readN_foldl_relocate hpost]
  -- what stands at the target when its turn comes, on either side
  have hcode : readN ((pre.filterMap (patchOf ss base runsRelocator resolved)).foldl
      Patch.apply ss) (base + e.target) (e.flags / 8) = readN ss (base + e.target) (e.flags / 8) :=
    readN_foldl_patches fun e' he' hr' _ => hpre e' he' hr'
  have hrun : readN (pre.foldl (relocate base resolved) ss) (base + e.target) (e.flags / 8)
      = readN ss (base + e.target) (e.flags / 8) := readN_foldl_relocate hpre
  cases hold : readN ss (base + e.target) (e.flags / 8) with
  | none =>
    rw [hold, Option.map_none] at hpatch
    rw [List.filterMap_cons_none hpatch, readN_foldl_patches fun e' he' hr' _ => hpost e' he' hr',
      hcode, hold, relocate, hword, hrun, hold]
    simpa using (hrun.trans hold).symm
  | some old =>
    obtain ⟨-, hpos, -⟩ := isSize_bounds hsize
    rw [hold, Option.map_some] at hpatch
    rw [List.filterMap_cons_some hpatch, List.foldl_cons,
      readN_foldl_patches fun e' he' hr' _ => hpost e' he' hr',
      readN_relocate_self hsize hword (hrun.trans hold), Patch.apply]
    set bs := leBytes (e.flags / 8) (newValue (leNat old) word (base + e.sym) e.flags)
    have hlen : bs.length = e.flags / 8 := length_leBytes _ _
    have hne : bs ≠ [] := by
      rw [← List.length_pos_iff, hlen]
      exact hpos
    rw [← hlen] at hcode hold ⊢
    exact readN_write hne (by rw [hcode, hold]; rfl)

end

/-- **Static pseudo-relocation beside the relocator.**  The items are those from the
first header on, up to one without a size; bytes of no owned and resolved target stay;
and where no resolved target meets the list, an owned target that no other resolved one
meets holds what the relocator leaves there. -/
theorem applyPseudoRelocsForModule_exact (ss : List Section) (base hi : ℕ) (runsRelocator : Bool)
    (resolved : List (ℕ × ℕ)) :
    (findList ss base hi = none →
      applyPseudoRelocsForModule ss base hi runsRelocator resolved = ss) ∧
    ∀ va stop, findList ss base hi = some (va, stop) → ∃ es,
      (va + 12 * es.length ≤ stop ∧ ItemsAt ss va es ∧ (∀ e ∈ es, isSize e.flags = true) ∧
        (va + 12 * (es.length + 1) ≤ stop → ∀ e, itemAt ss (va + 12 * es.length) = some e →
          isSize e.flags = false)) ∧
      (∀ a n, (∀ e ∈ es, Resolved base resolved e → Owned base ss runsRelocator e →
          Misses base e a n) →
        readN (applyPseudoRelocsForModule ss base hi runsRelocator resolved) a n
          = readN ss a n) ∧
      ((∀ e ∈ es, Resolved base resolved e → Misses base e va (12 * es.length)) →
        ∀ pre e post, es = pre ++ e :: post → Resolved base resolved e →
          Owned base ss runsRelocator e →
          (∀ e' ∈ pre ++ post, Resolved base resolved e' →
            Misses base e' (base + e.target) (e.flags / 8)) →
          readN (applyPseudoRelocsForModule ss base hi runsRelocator resolved)
              (base + e.target) (e.flags / 8)
            = readN (relocator base resolved es.length va ss)
              (base + e.target) (e.flags / 8)) := by
  constructor
  · intro hnone
    rw [applyPseudoRelocsForModule, hnone]
  · intro va stop hlist
    have happly : applyPseudoRelocsForModule ss base hi runsRelocator resolved =
        ((items ss va ((stop - va) / 12)).filterMap
          (patchOf ss base runsRelocator resolved)).foldl Patch.apply ss := by
      rw [applyPseudoRelocsForModule, hlist]
    have hle := findList_le hlist
    have hlen : (items ss va ((stop - va) / 12)).length ≤ (stop - va) / 12 := length_items_le _ _
    refine ⟨items ss va ((stop - va) / 12), ⟨by omega, itemsAt_items _ _,
      fun e he => isSize_of_mem_items he, fun hroom e he => items_maximal (by omega) he⟩, ?_, ?_⟩
    · intro a n hmiss
      rw [happly]
      exact readN_foldl_patches hmiss
    · intro hlistApart pre e post hes hr hown hapart
      have hsize : isSize e.flags = true :=
        isSize_of_mem_items (n := (stop - va) / 12) (by rw [hes]; simp)
      rw [happly, relocator_eq (itemsAt_items _ _) hlistApart, hes]
      exact readN_target hsize hr hown hapart

/-! ### A word after the list that is a size -/

/-- An image with one item, for four bytes at `36`, before `after`. -/
def listImage (after : List UInt8) : List Section :=
  [⟨".rdata", 0,
    [0, 0, 0, 0, 0, 0, 0, 0, 1, 0, 0, 0, 40, 0, 0, 0, 36, 0, 0, 0, 32, 0, 0, 0] ++
      (after ++ [0, 0, 0, 0, 0, 0, 0, 0, 0, 0, 0, 0]), false⟩]

/-- Two items, of which the second one is not resolved. -/
theorem applyPseudoRelocsForModule_exact_two :
    readN (applyPseudoRelocsForModule (listImage [44, 0, 0, 0, 40, 0, 0, 0, 32, 0, 0, 0]) 0
        (2 ^ 64 - 1) false [(40, 100)]) 36 4
      = readN (relocator 0 [(40, 100)] 2 12
        (listImage [44, 0, 0, 0, 40, 0, 0, 0, 32, 0, 0, 0])) 36 4 := by
  have hexact := (applyPseudoRelocsForModule_exact
    (listImage [44, 0, 0, 0, 40, 0, 0, 0, 32, 0, 0, 0]) 0 (2 ^ 64 - 1) false [(40, 100)]).2
    12 48 (by decide)
  obtain ⟨es, ⟨hroom, hat, hsizes, hmax⟩, -, hrun⟩ := hexact
  have htwo : es = [⟨40, 36, 32⟩, ⟨44, 40, 32⟩] := by
    match es with
    | [] =>
      have hfirst := hmax (by decide) ⟨40, 36, 32⟩ rfl
      simp [isSize] at hfirst
    | [e] =>
      have hsecond := hmax (by simp) ⟨44, 40, 32⟩ rfl
      simp [isSize] at hsecond
    | [e, e'] =>
      obtain ⟨he, he', -⟩ := hat
      cases he
      cases he'
      rfl
    | e :: e' :: e'' :: es =>
      -- the next word is no size
      obtain ⟨-, -, he'', -⟩ := hat
      have hzero := hsizes e'' (by simp)
      obtain rfl : (⟨0, 0, 0⟩ : Item) = e'' := Option.some.inj he''
      simp [isSize] at hzero
  subst htwo
  have hapart : ∀ e ∈ ([⟨40, 36, 32⟩, ⟨44, 40, 32⟩] : List Item), Resolved 0 [(40, 100)] e →
      Misses 0 e 12 24 := by
    simp [Misses]
  have hother : ∀ e ∈ ([⟨44, 40, 32⟩] : List Item), Resolved 0 [(40, 100)] e →
      Misses 0 e 36 4 := by
    simp [Misses]
  exact hrun hapart [] ⟨40, 36, 32⟩ [⟨44, 40, 32⟩] rfl rfl (by simp [Owned]) hother

/-- What running the relocator on the items `es` at `va` would make of the image. -/
def Refines (ss : List Section) (base hi : ℕ) (runsRelocator : Bool) (resolved : List (ℕ × ℕ))
    (va : ℕ) (es : List Item) : Prop :=
  (∀ e ∈ es, Resolved base resolved e → Owned base ss runsRelocator e →
    readN (applyPseudoRelocsForModule ss base hi runsRelocator resolved)
        (base + e.target) (e.flags / 8)
      = readN (relocator base resolved es.length va ss) (base + e.target) (e.flags / 8)) ∧
  ∀ a, (∀ e ∈ es, Misses base e a 1) →
    readN (applyPseudoRelocsForModule ss base hi runsRelocator resolved) a 1 = readN ss a 1

/-- **A list need not end where it is taken to**: three words after it that look like an
item are applied as one. -/
theorem not_refines_adjacent :
    ¬ ∀ (ss : List Section) (base hi : ℕ) (runsRelocator : Bool) (resolved : List (ℕ × ℕ))
      (va stop : ℕ) (es : List Item), findList ss base hi = some (va, stop) →
        ItemsAt ss va es → (∀ e ∈ es, isSize e.flags = true) →
        Refines ss base hi runsRelocator resolved va es := by
  intro h
  have hone := (h (listImage [40, 0, 0, 0, 44, 0, 0, 0, 8, 0, 0, 0]) 0 (2 ^ 64 - 1) false
    [(40, 100)] 12 48 [⟨40, 36, 32⟩] (by decide) ⟨rfl, trivial⟩ (by simp [isSize])).2 44
    (by simp [Misses])
  revert hone
  decide

end Aret.PseudoReloc
