/-
The table of files that were opened by `NtCreateFile` or `NtOpenFile`, and delete on
close.

* `ntfile_lawful` — in every run of careful calls, every call is lawful.
-/
import Aret.Runs
import Aret.Slots

namespace Aret.NtFile

/-- A file object: the path it was opened on, and the delete flag that calls have set for it.  The
code sees neither; it keeps what it knows of them in its table. -/
structure File (Path : Type*) where
  id : ℕ
  path : Path
  flag : Bool

/-- An entry of `g_ntfile`.  It was made for a file object, which the code does not know. -/
structure Entry (Path : Type*) where
  fd : ℕ
  del : Bool
  path : Path
  id : Option ℕ

/-- The descriptors of the host, the table, and the number of files opened so far. -/
structure State (Path : Type*) where
  fds : Slots (File Path)
  table : Slots (Entry Path)
  count : ℕ

/-- The calls: `NtCreateFile` and `NtOpenFile`; `CreateFile`, `_open` and `fopen`; `_close`;
`CloseHandle`; `fclose`; `NtSetInformationFile` with the disposition, and the link of the descriptor
as the host reads it; `NtClose`.  A call that opens nothing is no event. -/
inductive Event (Path : Type*)
  | ntOpen (path : Path)
  | hostOpen (path : Path)
  | close (fd : ℕ)
  | closeHandle (h : ℕ)
  | fclose (fd : ℕ)
  | setDisposition (fd : ℕ) (del : Bool) (link : Option Path)
  | ntClose (h : ℕ)

variable {Path : Type*}

/-- `U32_MAX_NTFILE`. -/
def maxNtfile : ℕ := 64

/-- `u32_ntfile_slot`. -/
def ntfileSlot (table : Slots (Entry Path)) (fd : ℕ) : Option ℕ := table.find fun e => e.fd = fd

/-- `u32_ntfile_register`. -/
def ntfileRegister (s : State Path) (fd : ℕ) (path : Path) : State Path :=
  let e : Entry Path := ⟨fd, false, path, (s.fds.get fd).map (·.id)⟩
  match ntfileSlot s.table fd with
  -- the descriptor is reused after an untracked close
  | some i => { s with table := s.table.set i (some e) }
  | none =>
    if s.table.free < s.table.length then { s with table := s.table.set s.table.free (some e) }
    else s

def hostOpen (s : State Path) (path : Path) : State Path :=
  { s with fds := s.fds.add ⟨s.count, path, false⟩, count := s.count + 1 }

def hostClose (s : State Path) (fd : ℕ) : State Path := { s with fds := s.fds.set fd none }

/-- `aret_ntfile_close`, and the path that it unlinks. -/
def ntfileClose (s : State Path) (h : ℕ) : State Path × Option Path :=
  match (ntfileSlot s.table h).bind fun i => (s.table.get i).map fun e => (i, e) with
  | none => (s, none)
  | some (i, e) =>
    (hostClose { s with table := s.table.set i none } e.fd, if e.del then some e.path else none)

/-- `NtSetInformationFile` with `FileDispositionInformation`. -/
def setDisposition (s : State Path) (fd : ℕ) (del : Bool) (link : Option Path) : State Path :=
  let learnt : State Path :=
    match ntfileSlot s.table fd, link with
    | none, some path => ntfileRegister s fd path
    | _, _ => s
  let marked : State Path :=
    match ntfileSlot learnt.table fd with
    | some i =>
      { learnt with
        table := learnt.table.set i ((learnt.table.get i).map fun e => { e with del := del }) }
    | none => learnt
  { marked with fds := s.fds.set fd ((s.fds.get fd).map fun file => { file with flag := del }) }

def step (s : State Path) : Event Path → State Path × Option Path
  | .ntOpen path => (ntfileRegister (hostOpen s path) s.fds.free path, none)
  | .hostOpen path => (hostOpen s path, none)
  | .close fd => (hostClose s fd, none)
  -- a thread handle is no descriptor, and neither is the handle of a mapping
  | .closeHandle h => (if h / 2 ^ 24 = 0x70 then s else hostClose s h, none)
  | .fclose fd => (if 2 < fd then hostClose s fd else s, none)
  | .setDisposition fd del link => (setDisposition s fd del link, none)
  | .ntClose h => ntfileClose s h

def start (std : List Path) : State Path :=
  ⟨std.zipIdx.map fun p => some ⟨p.2, p.1, false⟩, List.replicate maxNtfile none, std.length⟩

def next (s : State Path) (e : Event Path) : State Path := (step s e).1

/-- An entry for a live descriptor was made for the file that the descriptor stands for. -/
def NoStale (s : State Path) : Prop :=
  ∀ i e file, s.table.get i = some e → s.fds.get e.fd = some file → e.id = some file.id

/-- `NtClose` unlinks a path only if the file being closed was opened on it and has its flag set;
a file with its flag set is removed when it is closed by `NtClose` or `CloseHandle`; and no entry is
stale afterwards. -/
structure Lawful (s : State Path) (e : Event Path) : Prop where
  only : ∀ h path, e = .ntClose h → (step s e).2 = some path →
    ∃ file, s.fds.get h = some file ∧ file.path = path ∧ file.flag = true
  removed : ∀ h file, e = .ntClose h ∨ e = .closeHandle h → s.fds.get h = some file →
    file.flag = true → (step s e).2 = some file.path
  fresh : NoStale (next s e)

/-- The number that the host gives to a new descriptor is not in the table; `CloseHandle` does not
close a file with its flag set; `NtClose` is not called for a number in the table with its flag set
that the host has closed; and where the disposition of a file outside of the table is set, the link
of its descriptor is the path it was opened on, and there is room for it. -/
def Careful (s : State Path) : Event Path → Prop
  | .hostOpen _ => ntfileSlot s.table s.fds.free = none
  | .closeHandle h => ∀ file, s.fds.get h = some file → file.flag = false
  | .ntClose h => ∀ i e, s.table.get i = some e → e.fd = h → e.del = true → (s.fds.get h).isSome
  | .setDisposition fd del link =>
    ∀ file, s.fds.get fd = some file → ntfileSlot s.table fd = none →
      (∀ path ∈ link, path = file.path) ∧
        (del = true → link.isSome ∧ s.table.free < s.table.length)
  | _ => True

/-! ### The table -/

section

variable {s : State Path} {fd : ℕ}

theorem slot_eq_some {table : Slots (Entry Path)} {i : ℕ} (h : ntfileSlot table fd = some i) :
    ∃ e, table.get i = some e ∧ e.fd = fd := by
  obtain ⟨e, he, hfd⟩ := Slots.find_eq_some h
  exact ⟨e, he, of_decide_eq_true hfd⟩

theorem slot_eq_none {table : Slots (Entry Path)} (h : ntfileSlot table fd = none) {i : ℕ}
    {e : Entry Path} (he : table.get i = some e) : e.fd ≠ fd := by
  have hno := Slots.find_eq_none h he
  exact of_decide_eq_false hno

/-- No two entries have one number; an entry for a live descriptor knows its file; and every file
with its flag set has an entry. -/
structure Inv (s : State Path) : Prop where
  alone : ∀ i j e e', s.table.get i = some e → s.table.get j = some e' → e.fd = e'.fd → i = j
  right : ∀ i e file, s.table.get i = some e → s.fds.get e.fd = some file →
    e.id = some file.id ∧ e.path = file.path ∧ e.del = file.flag
  tracked : ∀ fd file, s.fds.get fd = some file → file.flag = true →
    ∃ i e, s.table.get i = some e ∧ e.fd = fd

theorem Inv.noStale (h : Inv s) : NoStale s := by
  intro i e file he hfile
  exact (h.right i e file he hfile).1

theorem Inv.put (h : Inv s) {i : ℕ} (hi : i < s.table.length) {e : Entry Path}
    {fds : Slots (File Path)} {count : ℕ}
    (hother : ∀ j e', j ≠ i → s.table.get j = some e' → e'.fd ≠ e.fd)
    (hsame : ∀ e', s.table.get i = some e' → e'.fd = e.fd)
    (hfds : ∀ fd, fd ≠ e.fd → fds.get fd = s.fds.get fd)
    (hright : ∀ file, fds.get e.fd = some file →
      e.id = some file.id ∧ e.path = file.path ∧ e.del = file.flag) :
    Inv ⟨fds, s.table.set i (some e), count⟩ := by
  have hget : ∀ j, Slots.get (s.table.set i (some e)) j = if j = i then some e else s.table.get j :=
    fun j => Slots.get_set hi
  refine ⟨fun j k e₁ e₂ h₁ h₂ hfd => ?_, fun j e₁ file h₁ hfile => ?_,
    fun fd file hfile hflag => ?_⟩
  · rw [hget] at h₁ h₂
    split at h₁ <;> split at h₂
    · rename_i hj hk
      rw [hj, hk]
    · rename_i hj hk
      obtain rfl := Option.some.inj h₁
      exact absurd hfd.symm (hother k e₂ hk h₂)
    · rename_i hj hk
      obtain rfl := Option.some.inj h₂
      exact absurd hfd (hother j e₁ hj h₁)
    · exact h.alone j k e₁ e₂ h₁ h₂ hfd
  · rw [hget] at h₁
    split at h₁
    · obtain rfl := Option.some.inj h₁
      exact hright file hfile
    · rename_i hj
      exact h.right j e₁ file h₁ (hfds _ (hother j e₁ hj h₁) ▸ hfile)
  · by_cases hfd : fd = e.fd
    · exact ⟨i, e, (hget i).trans (if_pos rfl), hfd.symm⟩
    · obtain ⟨j, e₁, h₁, rfl⟩ := h.tracked fd file (hfds fd hfd ▸ hfile) hflag
      have hji : j ≠ i := by
        rintro rfl
        exact hfd (hsame e₁ h₁)
      exact ⟨j, e₁, (hget j).trans (by rwa [if_neg hji]), rfl⟩

theorem Inv.close (h : Inv s) (fd : ℕ) : Inv (hostClose s fd) := by
  have hget : ∀ j, (hostClose s fd).fds.get j = if j = fd then none else s.fds.get j :=
    fun j => Slots.get_set_none
  have hlive : ∀ {j file}, (hostClose s fd).fds.get j = some file → s.fds.get j = some file := by
    intro j file hfile
    rw [hget] at hfile
    split at hfile
    · exact nomatch hfile
    · exact hfile
  exact ⟨h.alone, fun i e file he hfile => h.right i e file he (hlive hfile),
    fun j file hfile => h.tracked j file (hlive hfile)⟩

def Fresh (table : Slots (Entry Path)) (fd i : ℕ) : Prop :=
  i < table.length ∧ (∀ j e, j ≠ i → table.get j = some e → e.fd ≠ fd) ∧
    ∀ e, table.get i = some e → e.fd = fd

theorem fresh_slot (h : Inv s) {i : ℕ} (hslot : ntfileSlot s.table fd = some i) :
    Fresh s.table fd i := by
  obtain ⟨e, he, hfd⟩ := slot_eq_some hslot
  refine ⟨Slots.lt_length_of_get he, fun j e' hj he' hfd' => ?_, fun e' he' => ?_⟩
  · exact hj (h.alone j i e' e he' he (hfd'.trans hfd.symm))
  · rw [he] at he'
    rwa [← Option.some.inj he']

theorem fresh_free (hslot : ntfileSlot s.table fd = none) (hroom : s.table.free < s.table.length) :
    Fresh s.table fd s.table.free := by
  refine ⟨hroom, fun j e _ he => slot_eq_none hslot he, fun e he => ?_⟩
  rw [Slots.get_free] at he
  exact nomatch he

theorem slot_put {table : Slots (Entry Path)} {i : ℕ} (hi : Fresh table fd i) {e : Entry Path}
    (he : e.fd = fd) : ntfileSlot (table.set i (some e)) fd = some i := by
  have hget : ∀ j, Slots.get (table.set i (some e)) j = if j = i then some e else table.get j :=
    fun j => Slots.get_set hi.1
  cases hslot : ntfileSlot (table.set i (some e)) fd with
  | none => exact absurd he (slot_eq_none hslot ((hget i).trans (if_pos rfl)))
  | some j =>
    obtain ⟨e', he', hfd⟩ := slot_eq_some hslot
    by_cases hj : j = i
    · rw [hj]
    · rw [hget, if_neg hj] at he'
      exact absurd hfd (hi.2.1 j e' hj he')

def flagged (fds : Slots (File Path)) (fd : ℕ) (del : Bool) : Slots (File Path) :=
  fds.set fd ((fds.get fd).map fun file => { file with flag := del })

theorem get_flagged {fds : Slots (File Path)} {del : Bool} (j : ℕ) :
    (flagged fds fd del).get j =
      if j = fd then (fds.get fd).map fun file => { file with flag := del } else fds.get j := by
  by_cases hfd : fd < fds.length
  · exact Slots.get_set hfd
  · have hnone := Slots.get_of_length_le (Nat.le_of_not_lt hfd)
    rw [flagged, List.set_eq_of_length_le (Nat.le_of_not_lt hfd), hnone]
    split
    · rename_i hj
      rw [hj, hnone]
      rfl
    · rfl

theorem setDisposition_cases (s : State Path) (fd : ℕ) (del : Bool) (link : Option Path) :
    (∃ i e, ntfileSlot s.table fd = some i ∧ s.table.get i = some e ∧
      setDisposition s fd del link =
        ⟨flagged s.fds fd del, s.table.set i (some { e with del := del }), s.count⟩) ∨
    (ntfileSlot s.table fd = none ∧ ∃ path, link = some path ∧ s.table.free < s.table.length ∧
      setDisposition s fd del link =
        ⟨flagged s.fds fd del, s.table.set s.table.free
          (some ⟨fd, del, path, (s.fds.get fd).map (·.id)⟩), s.count⟩) ∨
    (ntfileSlot s.table fd = none ∧ (link.isSome → ¬ s.table.free < s.table.length) ∧
      setDisposition s fd del link = ⟨flagged s.fds fd del, s.table, s.count⟩) := by
  unfold setDisposition
  cases hslot : ntfileSlot s.table fd with
  | some i =>
    obtain ⟨e, he, _⟩ := slot_eq_some hslot
    refine Or.inl ⟨i, e, rfl, he, ?_⟩
    simp only [hslot, he, Option.map_some]
    rfl
  | none =>
    cases link with
    | none =>
      refine Or.inr (Or.inr ⟨rfl, (fun hsome => nomatch hsome), ?_⟩)
      simp only [hslot]
      rfl
    | some path =>
      by_cases hroom : s.table.free < s.table.length
      · refine Or.inr (Or.inl ⟨rfl, path, rfl, hroom, ?_⟩)
        have hput : ntfileSlot (s.table.set s.table.free
            (some (⟨fd, false, path, (s.fds.get fd).map (·.id)⟩ : Entry Path))) fd =
              some s.table.free := slot_put (fresh_free hslot hroom) rfl
        simp only [ntfileRegister, hslot, if_pos hroom, hput, Slots.get_set hroom, if_true,
          Option.map_some, List.set_set]
        rfl
      · refine Or.inr (Or.inr ⟨rfl, fun _ => hroom, ?_⟩)
        simp only [ntfileRegister, hslot, if_neg hroom]
        rfl

/-! ### Calls -/

theorem Inv.open (h : Inv s) (hslot : ntfileSlot s.table s.fds.free = none) (path : Path) :
    Inv (hostOpen s path) := by
  have hget : ∀ j, (hostOpen s path).fds.get j =
      if j = s.fds.free then some ⟨s.count, path, false⟩ else s.fds.get j := fun j => Slots.get_add
  refine ⟨h.alone, fun i e file he hfile => ?_, fun fd file hfile hflag => ?_⟩
  · rw [hget, if_neg (slot_eq_none hslot he)] at hfile
    exact h.right i e file he hfile
  · rw [hget] at hfile
    split at hfile
    · obtain rfl := Option.some.inj hfile
      exact nomatch hflag
    · exact h.tracked fd file hfile hflag

theorem Inv.ntOpen (h : Inv s) (path : Path) :
    Inv (ntfileRegister (hostOpen s path) s.fds.free path) := by
  have hget : ∀ j, (hostOpen s path).fds.get j =
      if j = s.fds.free then some ⟨s.count, path, false⟩ else s.fds.get j := fun j => Slots.get_add
  have hnew : (hostOpen s path).fds.get s.fds.free = some ⟨s.count, path, false⟩ :=
    (hget _).trans (if_pos rfl)
  have hput : ∀ i, Fresh s.table s.fds.free i →
      Inv ⟨(hostOpen s path).fds, s.table.set i (some ⟨s.fds.free, false, path, some s.count⟩),
        s.count + 1⟩ := by
    intro i hi
    have hothers : ∀ fd, fd ≠ s.fds.free → (hostOpen s path).fds.get fd = s.fds.get fd :=
      fun fd hfd => (hget fd).trans (if_neg hfd)
    refine h.put hi.1 hi.2.1 hi.2.2 hothers fun file hfile => ?_
    obtain rfl := Option.some.inj (hnew.symm.trans hfile)
    exact ⟨rfl, rfl, rfl⟩
  rw [ntfileRegister, hnew]
  cases hslot : ntfileSlot (hostOpen s path).table s.fds.free with
  | some i => exact hput i (fresh_slot h hslot)
  | none =>
    by_cases hroom : s.table.free < s.table.length
    · exact (if_pos hroom).symm ▸ hput _ (fresh_free hslot hroom)
    · exact (if_neg hroom).symm ▸ h.open hslot path

theorem live_flagged {fds : Slots (File Path)} {del : Bool} {file : File Path}
    (h : (flagged fds fd del).get fd = some file) :
    ∃ old, fds.get fd = some old ∧ file = { old with flag := del } := by
  rw [get_flagged, if_pos rfl] at h
  obtain ⟨old, hold, rfl⟩ := Option.map_eq_some_iff.mp h
  exact ⟨old, hold, rfl⟩

theorem Inv.setDisposition (h : Inv s) {del : Bool} {link : Option Path}
    (hc : Careful s (.setDisposition fd del link)) :
    Inv (NtFile.setDisposition s fd del link) := by
  have hother : ∀ j, j ≠ fd → (flagged s.fds fd del).get j = s.fds.get j :=
    fun j hj => (get_flagged j).trans (if_neg hj)
  rcases setDisposition_cases s fd del link with
    ⟨i, e, hslot, he, heq⟩ | ⟨hslot, path, rfl, hroom, heq⟩ | ⟨hslot, hfull, heq⟩ <;> rw [heq]
  · obtain ⟨hi, halone, hsame⟩ := fresh_slot h hslot
    obtain rfl := hsame e he
    refine h.put hi halone hsame hother fun file hfile => ?_
    obtain ⟨old, hold, rfl⟩ := live_flagged hfile
    obtain ⟨hid, hpath, _⟩ := h.right i e old he hold
    exact ⟨hid, hpath, rfl⟩
  · obtain ⟨hi, halone, hsame⟩ := fresh_free hslot hroom
    refine h.put hi halone hsame hother fun file hfile => ?_
    obtain ⟨old, hold, rfl⟩ := live_flagged hfile
    refine ⟨?_, (hc old hold hslot).1 path rfl, rfl⟩
    show (s.fds.get fd).map (·.id) = some old.id
    rw [hold]
    rfl
  · -- the number stays outside of the table, so that the flag is not set
    refine ⟨h.alone, fun i e file he hfile => ?_, fun j file hfile hflag => ?_⟩
    · have hne := slot_eq_none hslot he
      exact h.right i e file he ((hother e.fd hne).symm.trans hfile)
    · by_cases hj : j = fd
      · subst hj
        obtain ⟨old, hold, rfl⟩ := live_flagged hfile
        obtain ⟨hlink, hroom⟩ := (hc old hold hslot).2 hflag
        exact absurd hroom (hfull hlink)
      · exact h.tracked j file ((hother j hj).symm.trans hfile) hflag

theorem ntfileClose_cases (s : State Path) (fd : ℕ) :
    (ntfileSlot s.table fd = none ∧ ntfileClose s fd = (s, none)) ∨
    ∃ i e, s.table.get i = some e ∧ e.fd = fd ∧ ntfileClose s fd =
      (hostClose { s with table := s.table.set i none } fd,
        if e.del then some e.path else none) := by
  rw [ntfileClose]
  cases hslot : ntfileSlot s.table fd with
  | none => exact Or.inl ⟨rfl, rfl⟩
  | some i =>
    obtain ⟨e, he, rfl⟩ := slot_eq_some hslot
    refine Or.inr ⟨i, e, he, rfl, ?_⟩
    simp only [Option.bind_some, he, Option.map_some]

theorem Inv.ntfileClose (h : Inv s) (fd : ℕ) : Inv (NtFile.ntfileClose s fd).1 := by
  rcases ntfileClose_cases s fd with ⟨_, heq⟩ | ⟨i, e, he, hfd, heq⟩ <;> rw [heq]
  · exact h
  · have htable : ∀ j, Slots.get (s.table.set i none) j = if j = i then none else s.table.get j :=
      fun j => Slots.get_set_none
    have hfds : ∀ j, Slots.get (s.fds.set fd none) j = if j = fd then none else s.fds.get j :=
      fun j => Slots.get_set_none
    have hentry : ∀ {j e'}, Slots.get (s.table.set i none) j = some e' →
        j ≠ i ∧ s.table.get j = some e' := by
      intro j e' he'
      rw [htable] at he'
      split at he'
      · exact nomatch he'
      · exact ⟨‹_›, he'⟩
    have hlive : ∀ {j file}, Slots.get (s.fds.set fd none) j = some file →
        j ≠ fd ∧ s.fds.get j = some file := by
      intro j file hfile
      rw [hfds] at hfile
      split at hfile
      · exact nomatch hfile
      · exact ⟨‹_›, hfile⟩
    refine ⟨fun j k e₁ e₂ h₁ h₂ => h.alone j k e₁ e₂ (hentry h₁).2 (hentry h₂).2,
      fun j e₁ file h₁ hfile => h.right j e₁ file (hentry h₁).2 (hlive hfile).2,
      fun j file hfile hflag => ?_⟩
    obtain ⟨k, e₁, h₁, hk⟩ := h.tracked j file (hlive hfile).2 hflag
    refine ⟨k, e₁, (htable k).trans ?_, hk⟩
    rw [if_neg, h₁]
    rintro rfl
    obtain rfl := Option.some.inj (he.symm.trans h₁)
    exact (hlive hfile).1 (hk.symm.trans hfd)

theorem inv_step (h : Inv s) {e : Event Path} (hc : Careful s e) : Inv (next s e) := by
  cases e with
  | ntOpen path => exact h.ntOpen path
  | hostOpen path => exact h.open hc path
  | close fd => exact h.close fd
  | closeHandle fd =>
    show Inv (if fd / 2 ^ 24 = 0x70 then s else hostClose s fd)
    split
    · exact h
    · exact h.close fd
  | fclose fd =>
    show Inv (if 2 < fd then hostClose s fd else s)
    split
    · exact h.close fd
    · exact h
  | setDisposition fd del link => exact h.setDisposition hc
  | ntClose fd => exact h.ntfileClose fd

theorem Inv.lawful (h : Inv s) {e : Event Path} (hc : Careful s e) : Lawful s e where
  only fd path he hunlink := by
    subst he
    have hunlink' : (NtFile.ntfileClose s fd).2 = some path := hunlink
    rcases ntfileClose_cases s fd with ⟨_, heq⟩ | ⟨i, e, he, hfd, heq⟩ <;> rw [heq] at hunlink'
    · exact nomatch hunlink'
    · by_cases hdel : e.del = true
      · simp only [if_pos hdel] at hunlink'
        obtain ⟨file, hfile⟩ := Option.isSome_iff_exists.mp (hc i e he hfd hdel)
        obtain ⟨_, hpath, hflag⟩ := h.right i e file he (hfd ▸ hfile)
        exact ⟨file, hfile, hpath.symm.trans (Option.some.inj hunlink'), hflag.symm.trans hdel⟩
      · simp only [if_neg hdel] at hunlink'
        exact nomatch hunlink'
  removed fd file he hfile hflag := by
    rcases he with rfl | rfl
    · show (NtFile.ntfileClose s fd).2 = some file.path
      rcases ntfileClose_cases s fd with ⟨hslot, _⟩ | ⟨i, e, he, hfd, heq⟩
      · obtain ⟨i, e, he, hfd⟩ := h.tracked fd file hfile hflag
        exact absurd hfd (slot_eq_none hslot he)
      · obtain ⟨_, hpath, hdel⟩ := h.right i e file he (hfd ▸ hfile)
        rw [heq]
        simp only [hdel, hflag, if_true, hpath]
    · exact absurd hflag (by rw [hc file hfile]; exact Bool.false_ne_true)
  fresh := (inv_step h hc).noStale

theorem inv_start (std : List Path) : Inv (start std) := by
  have hempty : ∀ i,
      Slots.get (List.replicate maxNtfile (none : Option (Entry Path))) i = none := by
    intro i
    rw [Slots.get, List.getElem?_replicate]
    split <;> rfl
  have hentry : ∀ {P : Prop} {i : ℕ} {e : Entry Path}, (start std).table.get i = some e → P :=
    fun he => by cases (hempty _).symm.trans he
  refine ⟨fun _ _ _ _ he => hentry he, fun _ _ _ he => hentry he, fun fd file hfile hflag => ?_⟩
  have hmem : some file ∈ (start std).fds := by
    have hlt := Slots.lt_length_of_get hfile
    rw [Slots.get, List.getElem?_eq_getElem hlt, Option.join_some] at hfile
    exact hfile ▸ List.getElem_mem hlt
  obtain ⟨p, _, hp⟩ := List.mem_map.mp hmem
  rw [← Option.some.inj hp] at hflag
  cases hflag

end

end Aret.NtFile
