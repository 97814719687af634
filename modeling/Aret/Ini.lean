/-
Profile files: sections of keys with values.
-/
import Aret.Lines
import Aret.TranslatePath
import Mathlib.Data.List.DropRight

namespace Aret.Ini

open HostPath (lower)
open Lines (body bodies)

abbrev Bytes := List UInt8

def newline : UInt8 := 10

def isBlank (c : UInt8) : Bool := c = 32 ∨ c = 9

def isBlankOrCr (c : UInt8) : Bool := c = 32 ∨ c = 9 ∨ c = 13

def iniIeq : Bytes → Bytes → Bool
  | [], [] => true
  | a :: as, b :: bs => lower a = lower b && iniIeq as bs
  | _, _ => false

/-- `ini_clean_value`: the text that is stored in `out`. -/
def iniCleanValue (v : Bytes) (cap : ℕ) : Bytes :=
  let v := (v.dropWhile isBlank).rdropWhile isBlankOrCr
  let v := if 2 ≤ v.length ∧ v.head? = some 34 ∧ v.getLast? = some 34 then v.tail.dropLast else v
  v.take (cap - 1)

/-- `t`: the line from its first character that is not blank, up to its newline. -/
def lineStart (line : Bytes) : Bytes := (body newline line).dropWhile isBlank

/-- `s` to `e`: what stands between the brackets. -/
def headerName (t : Bytes) : Bytes := t.tail.takeWhile (· ≠ 93)

/-- `t` to `ke`, and what stands behind `eq`, where there is an `=`. -/
def keyValue? (t : Bytes) : Option (Bytes × Bytes) :=
  match t.dropWhile (· ≠ 61) with
  | [] => none
  | _ :: v => some ((t.takeWhile (· ≠ 61)).rdropWhile isBlank, v)

/-- The loop of `ini_get`. -/
def iniGetFrom (sec key : CStr) (cap : ℕ) : Bool → List Bytes → Option Bytes
  | _, [] => none
  | inside, line :: rest =>
    let t := lineStart line
    if t.head? = some 91 then
      iniGetFrom sec key cap (iniIeq (headerName t) sec.bytes) rest
    else if inside ∧ t ≠ [] ∧ t.head? ∉ [some 59, some 35, some 13] then
      match keyValue? t with
      | some (k, v) =>
        if iniIeq k key.bytes then some (iniCleanValue v cap)
        else iniGetFrom sec key cap inside rest
      | none => iniGetFrom sec key cap inside rest
    else iniGetFrom sec key cap inside rest

def iniGet (data : Option CStr) (sec key : CStr) (cap : ℕ) : Option Bytes :=
  data.bind fun data => iniGetFrom sec key cap false (Lines.lines newline data.bytes)

/-- `%s=%s\n`. -/
def setting (key value : CStr) : Bytes := key.bytes ++ 61 :: (value.bytes ++ [newline])

/-- `[%s]\n`. -/
def header (sec : CStr) : Bytes := 91 :: (sec.bytes ++ [93, newline])

/-- What the writer knows of the lines so far. -/
structure Flags where
  inTarget : Bool
  keyDone : Bool
  sectionSeen : Bool

/-- The state of the loop of `ini_rewrite`. -/
structure Rewriter extends Flags where
  out : OutBuf UInt8

/-- `cap - o` of numbers of type `size_t`, which wraps where it is negative. -/
def sizeSub (cap o : ℕ) : ℕ := if o ≤ cap then cap - o else cap + 2 ^ 32 - o

namespace Rewriter

/-- `memcpy(out + o, text, n); o += n`. -/
def copy (text : Bytes) (r : Rewriter) : Option Rewriter :=
  (r.out.append text).map fun out => { r with out := out }

/-- `o += snprintf(out + o, cap - o, …)`.  The strings and the block lie in one address space of
32 bits, so that no other sum of lengths wraps. -/
def print (cap : ℕ) (text : Bytes) (r : Rewriter) : Option Rewriter :=
  (r.out.print 0 (sizeSub cap r.out.pos) text).map fun out => { r with out := out }

end Rewriter

/-- One line of the loop of `ini_rewrite`: `none` where a byte is stored outside of the block. -/
def iniLine (cap : ℕ) (sec : CStr) (key value : Option CStr) (r : Rewriter) (line : Bytes) :
    Option Rewriter :=
  let t := lineStart line
  if t.head? = some 91 then
    let flushed : Option Rewriter :=
      match key, value with
      | some k, some v =>
        -- leaving the section without the key
        if r.inTarget ∧ r.keyDone = false then
          (r.print cap (setting k v)).map fun r => { r with keyDone := true }
        else some r
      | _, _ => some r
    flushed.bind fun r =>
      let m := iniIeq (headerName t) sec.bytes
      let r : Rewriter := { r with inTarget := m, sectionSeen := r.sectionSeen || m }
      if m ∧ key.isNone then some r else r.copy line
  else
    match key with
    | none => if r.inTarget then some r else r.copy line
    | some k =>
      if r.inTarget ∧ (keyValue? t).any fun e => iniIeq e.1 k.bytes then
        let printed : Option Rewriter :=
          match value with
          | some v => r.print cap (setting k v)
          | none => some r
        printed.map fun r => { r with keyDone := true }
      else r.copy line

def iniFinish (cap : ℕ) (sec : CStr) (key value : Option CStr) (r : Rewriter) :
    Option Rewriter :=
  match key, value with
  | some k, some v =>
    if r.keyDone then some r
    else
      let ended : Option Rewriter :=
        if r.out.pos = 0 then some r
        else r.out.cells[r.out.pos - 1]?.bind fun c => if c = newline then some r else r.copy [newline]
      ended.bind fun r =>
        if r.sectionSeen then r.print cap (setting k v)
        else r.print cap (header sec ++ setting k v)
  | _, _ => some r

def capacity (data : Option CStr) (sec : CStr) (key value : Option CStr) : ℕ :=
  (data.elim 0 (·.bytes.length)) + sec.bytes.length + key.elim 0 (·.bytes.length) +
    value.elim 0 (·.bytes.length) + 64

/-- `ini_rewrite`, with a block that `malloc` returns: the block and the length of the content. -/
def iniRewrite (malloc : (n : ℕ) → Vector UInt8 n) (data : Option CStr) (sec : CStr)
    (key value : Option CStr) : Option (Bytes × ℕ) :=
  let cap := capacity data sec key value
  let start : Rewriter := ⟨⟨false, false, false⟩, ⟨(malloc cap).toList, 0⟩⟩
  ((Lines.lines newline (data.elim [] (·.bytes))).foldlM (iniLine cap sec key value) start).bind
    fun r => (iniFinish cap sec key value r).map fun r => (r.out.cells, r.out.pos)

/-- `ini_slurp`: the content of a file, as the text that it starts with. -/
def iniSlurp (file : Option Bytes) : Option CStr :=
  file.map fun content => ⟨cstr content, by
    intro h
    have hne := List.mem_takeWhile_imp h
    exact of_decide_eq_true hne rfl⟩

/-- `WritePrivateProfileStringA`, where there is memory and the file can be written: the new content
of the file, or `none` where the block is left. -/
def writePrivateProfileStringA (malloc : (n : ℕ) → Vector UInt8 n) (file : Option Bytes)
    (sec : CStr) (key value : Option CStr) : Option Bytes :=
  (iniRewrite malloc (iniSlurp file) sec key value).bind fun (out, olen) =>
    if olen ≤ out.length then some (out.take olen) else none

def lookup (cap : ℕ) (file : Option Bytes) (sec key : CStr) : Option Bytes :=
  iniGet (iniSlurp file) sec key cap

/-! ### Lines and bindings -/

inductive Kind
  | header (name : Bytes)
  | entry (key value : Bytes)
  | other

def kind (line : Bytes) : Kind :=
  let t := lineStart line
  if t.head? = some 91 then .header (headerName t)
  else if t ≠ [] ∧ t.head? ∉ [some 59, some 35, some 13] then
    match keyValue? t with
    | some (k, v) => .entry k v
    | none => .other
  else .other

/-- A value that some line of a section gives to a key. -/
structure Binding where
  sec : Bytes
  key : Bytes
  value : Bytes

def bindings : Option Bytes → List Bytes → List Binding
  | _, [] => []
  | cur, line :: rest =>
    match kind line with
    | .header name => bindings (some name) rest
    | .entry k v => (cur.map fun s => ⟨s, k, v⟩).toList ++ bindings cur rest
    | .other => bindings cur rest

def lastSection : Option Bytes → List Bytes → Option Bytes
  | cur, [] => cur
  | cur, line :: rest =>
    match kind line with
    | .header name => lastSection (some name) rest
    | _ => lastSection cur rest

def Binding.names (sec key : CStr) (x : Binding) : Bool :=
  iniIeq x.sec sec.bytes && iniIeq x.key key.bytes

def inside (sec : CStr) (cur : Option Bytes) : Bool := cur.any fun name => iniIeq name sec.bytes

theorem iniIeq_iff {a b : Bytes} : iniIeq a b = true ↔ a.map lower = b.map lower := by
  induction a generalizing b with
  | nil => cases b <;> simp [iniIeq]
  | cons x a ih => cases b <;> simp [iniIeq, ih]

theorem bindings_append {cur : Option Bytes} {ls ls' : List Bytes} :
    bindings cur (ls ++ ls') = bindings cur ls ++ bindings (lastSection cur ls) ls' := by
  induction ls generalizing cur with
  | nil => rfl
  | cons line ls ih =>
    rw [List.cons_append, bindings, bindings, lastSection]
    cases kind line with
    | header name => exact ih
    | entry k v => simp only [ih, List.append_assoc]
    | other => exact ih

theorem lastSection_append {cur : Option Bytes} {ls ls' : List Bytes} :
    lastSection cur (ls ++ ls') = lastSection (lastSection cur ls) ls' := by
  induction ls generalizing cur with
  | nil => rfl
  | cons line ls ih =>
    rw [List.cons_append, lastSection, lastSection]
    cases kind line <;> exact ih

theorem kind_body (line : Bytes) : kind (body newline line) = kind line := by
  have hbody : body newline (body newline line) = body newline line :=
    Lines.body_of_notMem (Lines.notMem_body line)
  rw [kind, kind, lineStart, lineStart, hbody]

theorem bindings_map_body {cur : Option Bytes} {ls : List Bytes} :
    bindings cur (ls.map (body newline)) = bindings cur ls := by
  induction ls generalizing cur with
  | nil => rfl
  | cons line ls ih =>
    rw [List.map_cons, bindings, bindings, kind_body]
    cases kind line with
    | header name => exact ih
    | entry k v => simp only [ih]
    | other => exact ih

theorem iniGetFrom_eq {sec key : CStr} {cap : ℕ} {cur : Option Bytes} {ls : List Bytes} :
    iniGetFrom sec key cap (inside sec cur) ls =
      ((bindings cur ls).find? (Binding.names sec key)).map fun x => iniCleanValue x.value cap := by
  induction ls generalizing cur with
  | nil => rfl
  | cons line ls ih =>
    rw [iniGetFrom, bindings, kind]
    by_cases hh : (lineStart line).head? = some 91
    · simp only [if_pos hh]
      exact @ih (some _)
    by_cases ht : lineStart line ≠ [] ∧ (lineStart line).head? ∉ [some 59, some 35, some 13]
    · simp only [if_neg hh, if_pos ht]
      rcases hentry : keyValue? (lineStart line) with _ | ⟨k, v⟩
      · simp only [ih, ite_self]
      · rcases cur with _ | s
        · exact ih
        · by_cases hs : iniIeq s sec.bytes = true
          · by_cases hk : iniIeq k key.bytes = true
            · simp [inside, Binding.names, hs, hk, ht]
            · have hnot : Binding.names sec key ⟨s, k, v⟩ = false := by
                simp [Binding.names, hk]
              simp only [if_neg hk, ih, ite_self, Option.map_some, Option.toList_some,
                List.singleton_append, List.find?_cons, hnot]
          · have hnot : Binding.names sec key ⟨s, k, v⟩ = false := by
              simp [Binding.names, hs]
            have hout : inside sec (some s) = false := by simpa [inside] using hs
            rw [if_neg (fun h => by simp [hout] at h), ih]
            simp only [Option.map_some, Option.toList_some, List.singleton_append,
              List.find?_cons, hnot]
    · simp only [if_neg hh, if_neg ht, ih]
      rw [if_neg fun h => ht h.2]

def textBindings (text : Bytes) : List Binding := bindings none (bodies newline text)

theorem textBindings_eq (text : Bytes) :
    textBindings text = bindings none (Lines.lines newline text) := by
  rw [textBindings, bodies, bindings_map_body]

theorem iniGet_eq (data : CStr) (sec key : CStr) (cap : ℕ) :
    iniGet (some data) sec key cap = ((textBindings data.bytes).find? (Binding.names sec key)).map
      fun x => iniCleanValue x.value cap := by
  rw [textBindings_eq]
  exact @iniGetFrom_eq sec key cap none _

end Aret.Ini
