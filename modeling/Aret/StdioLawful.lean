/-
Runs of the synthetic stdio.

* `stdio_lawful` — so are all calls of a run of careful ones, and each byte is delivered
  once.
-/
import Aret.Runs
import Aret.StdioCalls

namespace Aret.Stdio

open CStream

/-- `popen` finds room in its side table; `fdopen` is given a descriptor that no stream has;
`getchar` has nothing pushed back to `stdin` and does not find its end; and the other calls are on
open streams in which they are safe. -/
def Careful (s : State) : Call → Prop
  | .fopen _ => True
  | .popen opened =>
    opened = none ∨ (∀ i, s.used i = true) ∨ s.popenTab.free < s.popenTab.length
  | .fdopen fd => fd < 0 ∨ (∀ i, s.used i = true) ∨ (abs s).loose fd.toNat ≠ none
  | .getchar =>
    ∀ st, (abs s).stream (.iob 0) = some st →
      st.pushed = none ∧ (st.desc.ahead ≠ [] ∨ st.eof = true)
  | .on f op =>
    f = .other ∨ ∃ st, (abs s).stream f = some st ∧ Safe st ((abs s).child f) op

structure Inv (s : State) : Prop where
  std : ∀ i : Fin 3, (s.fds.get i).isSome
  live : ∀ i, s.used i = true →
    3 ≤ (s.files (.dyn i)).file ∧ (s.fds.get (s.files (.dyn i)).file).isSome
  alone : ∀ i j, s.used i = true → s.used j = true →
    (s.files (.dyn i)).file = (s.files (.dyn j)).file → i = j
  tab : ∀ k e, s.popenTab.get k = some e →
    ∃ i, e.1 = .dyn i ∧ s.used i = true ∧ (s.files (.dyn i)).file = e.2
  once : ∀ k l e e', s.popenTab.get k = some e → s.popenTab.get l = some e' → e.1 = e'.1 → k = l

section

variable {s s' : State} {f g : File} {i : Fin 64} {fd : ℕ} {d : Desc UInt8}
  {st st' : Stream UInt8}

/-! ### The streams of a state -/

theorem Has.stream (h : Has s f fd st) : (abs s).stream f = some st := by
  have hst : streamOf (s.files f) st.desc = st := by rw [streamOf, h.pushed, h.eof]
  rw [abs]
  dsimp only
  rw [if_pos h.isOpen, h.fileFd, Option.bind_some, h.desc, Option.map_some, hst]

theorem has_of_stream (h : (abs s).stream f = some st) : ∃ fd, Has s f fd st := by
  rw [abs] at h
  dsimp only at h
  split_ifs at h with hopen
  obtain ⟨d, hd, rfl⟩ := Option.map_eq_some_iff.mp h
  obtain ⟨fd, hfd, hget⟩ := Option.bind_eq_some_iff.mp hd
  exact ⟨fd, hopen, hfd, hget, rfl, rfl⟩

theorem stream_of_not_isOpen (h : ¬IsOpen s f) : (abs s).stream f = none := if_neg h

theorem Inv.has (h : Inv s) (hopen : IsOpen s f) : ∃ fd st, Has s f fd st := by
  have hmain : ∀ fd, fileFd s f = some fd → (s.fds.get fd).isSome → ∃ fd st, Has s f fd st := by
    intro fd hfd hsome
    obtain ⟨d, hd⟩ := Option.isSome_iff_exists.mp hsome
    exact ⟨fd, streamOf (s.files f) d, hopen, hfd, hd, rfl, rfl⟩
  cases f with
  | iob i => exact hmain i rfl (h.std i)
  | dyn i => exact hmain _ rfl (h.live i hopen).2
  | other => exact hopen.elim

theorem Has.descriptor (h : Has s f fd st) :
    (∃ i : Fin 3, f = .iob i ∧ fd = i) ∨
      ∃ i, f = .dyn i ∧ s.used i = true ∧ (s.files (.dyn i)).file = fd := by
  have hfd := h.fileFd
  cases f with
  | iob i => exact .inl ⟨i, rfl, (Option.some.inj hfd).symm⟩
  | dyn i => exact .inr ⟨i, rfl, h.isOpen, Option.some.inj hfd⟩
  | other => exact h.isOpen.elim

theorem Has.owned (h : Has s f fd st) : Owned s fd := by
  obtain ⟨i, -, rfl⟩ | ⟨i, -, hused, hfile⟩ := h.descriptor
  · exact .inl i.isLt
  · exact .inr ⟨i, hused, hfile⟩

theorem Inv.ne_of_ne (h : Inv s) {fd' : ℕ} (hf : Has s f fd st) (hg : Has s g fd' st')
    (hne : g ≠ f) : fd' ≠ fd := by
  rintro rfl
  obtain ⟨i, rfl, rfl⟩ | ⟨i, rfl, hi, rfl⟩ := hf.descriptor
  · obtain ⟨j, rfl, hj⟩ | ⟨j, -, hj, hfile⟩ := hg.descriptor
    · exact hne (congrArg File.iob (Fin.ext hj.symm))
    · have hlow := (h.live j hj).1
      omega
  · obtain ⟨j, -, hfile⟩ | ⟨j, rfl, hj, hfile⟩ := hg.descriptor
    · have hlow := (h.live i hi).1
      omega
    · exact hne (congrArg File.dyn (h.alone j i hj hi hfile))

theorem child_iff : (abs s).child f = true ↔ ∃ k e, s.popenTab.get k = some e ∧ e.1 = f := by
  rw [abs]
  dsimp only
  cases hfind : s.popenTab.find fun e => e.1 = f with
  | none =>
    refine ⟨fun h => absurd h Bool.false_ne_true, ?_⟩
    rintro ⟨k, e, hk, hf⟩
    have hno := Slots.find_eq_none hfind hk
    exact absurd hf (of_decide_eq_false hno)
  | some k =>
    obtain ⟨e, hk, hf⟩ := Slots.find_eq_some hfind
    exact ⟨fun _ => ⟨k, e, hk, of_decide_eq_true hf⟩, fun _ => rfl⟩

theorem owned_eq (hused : s'.used = s.used)
    (hfile : ∀ i, (s'.files (.dyn i)).file = (s.files (.dyn i)).file) (fd : ℕ) :
    Owned s' fd ↔ Owned s fd := by
  rw [Owned, Owned, hused]
  simp only [hfile]

/-! ### A change of one stream -/

theorem Inv.becomes (h : Inv s) (hb : Becomes s s' f fd st') : Inv s' := by
  have hget : ∀ j, (s.fds.get j).isSome → (s'.fds.get j).isSome := by
    intro j hj
    by_cases hjf : j = fd
    · rw [hjf, hb.desc]
      rfl
    · rwa [hb.fds j hjf]
  refine ⟨fun i => hget _ (h.std i), ?_, ?_, ?_, ?_⟩
  · intro i hi
    rw [hb.used] at hi
    rw [hb.file_eq]
    exact ⟨(h.live i hi).1, hget _ (h.live i hi).2⟩
  · intro i j hi hj hij
    rw [hb.used] at hi hj
    rw [hb.file_eq, hb.file_eq] at hij
    exact h.alone i j hi hj hij
  · intro k e hk
    rw [hb.popenTab] at hk
    obtain ⟨i, he, hi, hfile⟩ := h.tab k e hk
    exact ⟨i, he, by rwa [hb.used], by rwa [hb.file_eq]⟩
  · rw [hb.popenTab]
    exact h.once

theorem abs_of_becomes (h : Inv s) (hf : Has s f fd st) (hb : Becomes s s' f fd st') :
    abs s' = (abs s).put f (some st') := by
  have hstream : (abs s').stream = Function.update (abs s).stream f (some st') := by
    funext g
    by_cases hg : g = f
    · rw [hg, Function.update_self, (hb.has hf).stream]
    · rw [Function.update_of_ne hg]
      by_cases hopen : IsOpen s g
      · obtain ⟨fd', st'', hhas⟩ := h.has hopen
        have hhas' : Has s' g fd' st'' :=
          ⟨(isOpen_eq hb.used g).mpr hopen, (hb.fileFd_eq g).trans hhas.fileFd,
            (hb.fds fd' (h.ne_of_ne hf hhas hg)).trans hhas.desc,
            by rw [hb.files g hg, hhas.pushed], by rw [hb.files g hg, hhas.eof]⟩
        rw [hhas.stream, hhas'.stream]
      · rw [stream_of_not_isOpen hopen,
          stream_of_not_isOpen (mt (isOpen_eq hb.used g).mp hopen)]
  have hchild : (abs s').child = (abs s).child := by
    rw [abs, abs, hb.popenTab]
  have hloose : (abs s').loose = (abs s).loose := by
    funext j
    have howned := owned_eq hb.used (fun i => hb.file_eq (.dyn i)) j
    rw [abs, abs]
    dsimp only
    by_cases hj : Owned s j
    · rw [if_pos hj, if_pos (howned.mpr hj)]
    · rw [if_neg hj, if_neg (mt howned.mp hj)]
      exact hb.fds j fun heq => hj (heq ▸ hf.owned)
  rw [Streams.put, ← hstream, ← hchild, ← hloose]

/-! ### A new stream -/

/-- The second state is the first with a stream in a free slot, over a descriptor that no stream
has. -/
structure Adds (s s' : State) (i : Fin 64) (fd : ℕ) (d : Desc UInt8) : Prop where
  free : s.used i = false
  new : ¬Owned s fd
  used : s'.used = Function.update s.used i true
  files : s'.files = Function.update s.files (.dyn i) ⟨0, false, false, fd, none⟩
  popenTab : s'.popenTab = s.popenTab
  desc : s'.fds.get fd = some d
  fds : ∀ j, j ≠ fd → s'.fds.get j = s.fds.get j

theorem Adds.has (h : Adds s s' i fd d) : Has s' (.dyn i) fd ⟨d, none, false⟩ := by
  have hself : s'.files (.dyn i) = ⟨0, false, false, fd, none⟩ := by
    rw [h.files, Function.update_self]
  refine ⟨?_, ?_, h.desc, by rw [hself], by rw [hself]⟩
  · rw [IsOpen, h.used, Function.update_self]
  · rw [fileFd, hself]

theorem Adds.other (h : Adds s s' i fd d) {j : Fin 64} (hj : j ≠ i) :
    s'.used j = s.used j ∧ s'.files (.dyn j) = s.files (.dyn j) := by
  have hfile : File.dyn j ≠ File.dyn i := fun heq => hj (File.dyn.inj heq)
  rw [h.used, h.files, Function.update_of_ne hj, Function.update_of_ne hfile]
  exact ⟨rfl, rfl⟩

theorem Adds.file_cases (h : Adds s s' i fd d) {j : Fin 64} (hj : s'.used j = true) :
    (j = i ∧ (s'.files (.dyn j)).file = fd) ∨
      (j ≠ i ∧ s.used j = true ∧ (s'.files (.dyn j)).file = (s.files (.dyn j)).file ∧
        (s.files (.dyn j)).file ≠ fd) := by
  by_cases hji : j = i
  · subst hji
    exact .inl ⟨rfl, Option.some.inj h.has.fileFd⟩
  · obtain ⟨hused, hfile⟩ := h.other hji
    rw [hused] at hj
    exact .inr ⟨hji, hj, by rw [hfile], fun heq => h.new (.inr ⟨j, hj, heq⟩)⟩

theorem Inv.adds (h : Inv s) (ha : Adds s s' i fd d) : Inv s' := by
  have hhigh : 3 ≤ fd := by
    by_contra hlow
    exact ha.new (.inl (Nat.lt_of_not_le hlow))
  refine ⟨?_, ?_, ?_, ?_, ?_⟩
  · intro j
    have hne : (j : ℕ) ≠ fd := by
      have hj := j.isLt
      omega
    rw [ha.fds j hne]
    exact h.std j
  · intro j hj
    obtain ⟨rfl, hfile⟩ | ⟨-, hused, hfile, hne⟩ := ha.file_cases hj
    · rw [hfile, ha.desc]
      exact ⟨hhigh, rfl⟩
    · rw [hfile, ha.fds _ hne]
      exact h.live j hused
  · intro j k hj hk hjk
    obtain ⟨rfl, hfile⟩ | ⟨-, hused, hfile, hne⟩ := ha.file_cases hj
    · obtain ⟨rfl, -⟩ | ⟨-, -, hfile', hne'⟩ := ha.file_cases hk
      · rfl
      · rw [hfile, hfile'] at hjk
        exact absurd hjk.symm hne'
    · obtain ⟨-, hfile'⟩ | ⟨-, hused', hfile', -⟩ := ha.file_cases hk
      · rw [hfile, hfile'] at hjk
        exact absurd hjk hne
      · rw [hfile, hfile'] at hjk
        exact h.alone j k hused hused' hjk
  · intro k e hk
    rw [ha.popenTab] at hk
    obtain ⟨j, he, hj, hfile⟩ := h.tab k e hk
    have hji : j ≠ i := by
      rintro rfl
      rw [ha.free] at hj
      cases hj
    obtain ⟨hused', hfile'⟩ := ha.other hji
    exact ⟨j, he, by rw [hused', hj], by rw [hfile', hfile]⟩
  · rw [ha.popenTab]
    exact h.once

theorem Adds.owned_iff (h : Adds s s' i fd d) (j : ℕ) : Owned s' j ↔ Owned s j ∨ j = fd := by
  constructor
  · rintro (hlow | ⟨k, hk, rfl⟩)
    · exact .inl (.inl hlow)
    · obtain ⟨-, hfile⟩ | ⟨-, hused, hfile, -⟩ := h.file_cases hk
      · exact .inr hfile
      · exact .inl (.inr ⟨k, hused, hfile.symm⟩)
  · rintro ((hlow | ⟨k, hk, rfl⟩) | rfl)
    · exact .inl hlow
    · have hki : k ≠ i := by
        rintro rfl
        rw [h.free] at hk
        cases hk
      obtain ⟨hused', hfile'⟩ := h.other hki
      exact .inr ⟨k, by rw [hused', hk], by rw [hfile']⟩
    · exact h.has.owned

theorem abs_of_adds (h : Inv s) (ha : Adds s s' i fd d) :
    (abs s).stream (.dyn i) = none ∧ abs s' =
      { (abs s).put (.dyn i) (some ⟨d, none, false⟩) with
        loose := Function.update (abs s).loose fd none } := by
  have hnew : (abs s).stream (.dyn i) = none := by
    refine stream_of_not_isOpen fun hopen => ?_
    rw [IsOpen, ha.free] at hopen
    cases hopen
  have hstream : (abs s').stream =
      Function.update (abs s).stream (.dyn i) (some ⟨d, none, false⟩) := by
    funext g
    by_cases hg : g = .dyn i
    · rw [hg, Function.update_self, ha.has.stream]
    · have hsame : (IsOpen s' g ↔ IsOpen s g) ∧ fileFd s' g = fileFd s g := by
        cases g with
        | dyn j =>
          obtain ⟨hused, hfile⟩ := ha.other fun heq => hg (congrArg File.dyn heq)
          rw [IsOpen, IsOpen, hused, fileFd, fileFd, hfile]
          exact ⟨Iff.rfl, rfl⟩
        | _ => exact ⟨Iff.rfl, rfl⟩
      obtain ⟨hopen, hfileFd⟩ := hsame
      rw [Function.update_of_ne hg]
      by_cases hg' : IsOpen s g
      · obtain ⟨fd', st, hhas⟩ := h.has hg'
        have hne : fd' ≠ fd := fun heq => ha.new (heq ▸ hhas.owned)
        have hfiles : s'.files g = s.files g := by rw [ha.files, Function.update_of_ne hg]
        have hhas' : Has s' g fd' st :=
          ⟨hopen.mpr hg', hfileFd.trans hhas.fileFd, (ha.fds fd' hne).trans hhas.desc,
            by rw [hfiles, hhas.pushed], by rw [hfiles, hhas.eof]⟩
        rw [hhas.stream, hhas'.stream]
      · rw [stream_of_not_isOpen hg', stream_of_not_isOpen (mt hopen.mp hg')]
  have hchild : (abs s').child = (abs s).child := by
    rw [abs, abs, ha.popenTab]
  have hloose : (abs s').loose = Function.update (abs s).loose fd none := by
    funext j
    have howned := ha.owned_iff j
    by_cases hj : j = fd
    · rw [hj, Function.update_self, abs]
      exact if_pos ha.has.owned
    · rw [Function.update_of_ne hj, abs, abs]
      dsimp only
      rw [ha.fds j hj]
      by_cases hown : Owned s j
      · rw [if_pos hown, if_pos (howned.mpr (.inl hown))]
      · rw [if_neg hown, if_neg (mt howned.mp (not_or.mpr ⟨hown, hj⟩))]
  refine ⟨hnew, ?_⟩
  rw [Streams.put, ← hstream, ← hchild, ← hloose]

/-! ### A stream that is closed -/

/-- The second state is the first without the stream. -/
structure Drops (s s' : State) (i : Fin 64) (fd : ℕ) : Prop where
  used : s'.used = Function.update s.used i false
  files : s'.files = s.files
  fds : ∀ j, s'.fds.get j = if j = fd then none else s.fds.get j
  tab : ∀ k e, s'.popenTab.get k = some e ↔ s.popenTab.get k = some e ∧ e.1 ≠ .dyn i

theorem Drops.used_iff (h : Drops s s' i fd) (j : Fin 64) :
    s'.used j = true ↔ j ≠ i ∧ s.used j = true := by
  rw [h.used]
  by_cases hj : j = i
  · rw [hj, Function.update_self]
    exact ⟨fun hno => absurd hno Bool.false_ne_true, fun hno => absurd rfl hno.1⟩
  · rw [Function.update_of_ne hj]
    exact ⟨fun hused => ⟨hj, hused⟩, fun hused => hused.2⟩

theorem Inv.drops (h : Inv s) (hf : Has s (.dyn i) fd st) (hd : Drops s s' i fd) : Inv s' := by
  have hfile : (s.files (.dyn i)).file = fd := Option.some.inj hf.fileFd
  have hi : s.used i = true := hf.isOpen
  refine ⟨?_, ?_, ?_, ?_, ?_⟩
  · intro j
    have hne : (j : ℕ) ≠ fd := by
      have hj := j.isLt
      have hhigh := (h.live i hi).1
      omega
    rw [hd.fds, if_neg hne]
    exact h.std j
  · intro j hj
    obtain ⟨hji, hused⟩ := (hd.used_iff j).mp hj
    have hne : (s.files (.dyn j)).file ≠ fd :=
      fun heq => hji (h.alone j i hused hi (heq.trans hfile.symm))
    rw [hd.files, hd.fds, if_neg hne]
    exact h.live j hused
  · intro j k hj hk hjk
    rw [hd.files] at hjk
    exact h.alone j k ((hd.used_iff j).mp hj).2 ((hd.used_iff k).mp hk).2 hjk
  · intro k e hk
    obtain ⟨hold, hne⟩ := (hd.tab k e).mp hk
    obtain ⟨j, he, hj, hjfile⟩ := h.tab k e hold
    have hji : j ≠ i := by
      rintro rfl
      exact hne he
    exact ⟨j, he, (hd.used_iff j).mpr ⟨hji, hj⟩, by rw [hd.files, hjfile]⟩
  · intro k l e e' hk hl heq
    exact h.once k l e e' ((hd.tab k e).mp hk).1 ((hd.tab l e').mp hl).1 heq

theorem abs_of_drops (h : Inv s) (hf : Has s (.dyn i) fd st) (hd : Drops s s' i fd) :
    abs s' = (abs s).close (.dyn i) := by
  have hfile : (s.files (.dyn i)).file = fd := Option.some.inj hf.fileFd
  have hi : s.used i = true := hf.isOpen
  have hfileFd : ∀ g, fileFd s' g = fileFd s g := fileFd_eq fun j => by rw [hd.files]
  have hstream : (abs s').stream = Function.update (abs s).stream (.dyn i) none := by
    funext g
    by_cases hg : g = .dyn i
    · rw [hg, Function.update_self]
      refine stream_of_not_isOpen fun hopen => ?_
      exact ((hd.used_iff i).mp hopen).1 rfl
    · have hopen : IsOpen s' g ↔ IsOpen s g := by
        cases g with
        | dyn j =>
          have hji : j ≠ i := fun heq => hg (congrArg File.dyn heq)
          exact (hd.used_iff j).trans (and_iff_right hji)
        | _ => exact Iff.rfl
      rw [Function.update_of_ne hg]
      by_cases hg' : IsOpen s g
      · obtain ⟨fd', st', hhas⟩ := h.has hg'
        have hget : s'.fds.get fd' = s.fds.get fd' := by
          rw [hd.fds, if_neg (h.ne_of_ne hf hhas hg)]
        have hhas' : Has s' g fd' st' :=
          ⟨hopen.mpr hg', (hfileFd g).trans hhas.fileFd, hget.trans hhas.desc,
            by rw [hd.files, hhas.pushed], by rw [hd.files, hhas.eof]⟩
        rw [hhas.stream, hhas'.stream]
      · rw [stream_of_not_isOpen hg', stream_of_not_isOpen (mt hopen.mp hg')]
  have hchild : (abs s').child = Function.update (abs s).child (.dyn i) false := by
    funext g
    rw [Bool.eq_iff_iff, child_iff]
    by_cases hg : g = .dyn i
    · rw [hg, Function.update_self]
      refine ⟨?_, fun hno => absurd hno Bool.false_ne_true⟩
      rintro ⟨k, e, hk, he⟩
      exact absurd he ((hd.tab k e).mp hk).2
    · rw [Function.update_of_ne hg, child_iff]
      constructor
      · rintro ⟨k, e, hk, he⟩
        exact ⟨k, e, ((hd.tab k e).mp hk).1, he⟩
      · rintro ⟨k, e, hk, he⟩
        exact ⟨k, e, (hd.tab k e).mpr ⟨hk, by rwa [he]⟩, he⟩
  have hloose : (abs s').loose = (abs s).loose := by
    funext j
    rw [abs, abs]
    dsimp only
    rw [hd.fds]
    by_cases hj : j = fd
    · rw [if_pos hj, ite_self, hj, if_pos hf.owned]
    · have howned : Owned s' j ↔ Owned s j := by
        constructor
        · rintro (hlow | ⟨k, hk, rfl⟩)
          · exact .inl hlow
          · exact .inr ⟨k, ((hd.used_iff k).mp hk).2, by rw [hd.files]⟩
        · rintro (hlow | ⟨k, hk, rfl⟩)
          · exact .inl hlow
          · have hki : k ≠ i := by
              rintro rfl
              exact hj hfile
            exact .inr ⟨k, (hd.used_iff k).mpr ⟨hki, hk⟩, by rw [hd.files]⟩
      rw [if_neg hj]
      by_cases hown : Owned s j
      · rw [if_pos hown, if_pos (howned.mpr hown)]
      · rw [if_neg hown, if_neg (mt howned.mp hown)]
  rw [Streams.close, Streams.put, ← hstream, ← hchild, ← hloose]

/-! ### Opening -/

theorem allocDynfile_cases (s : State) (fd : ℕ) :
    ((∀ i, s.used i = true) ∧ allocDynfile s fd = (none, s)) ∨
      ∃ i, s.used i = false ∧ allocDynfile s fd =
        (some (.dyn i), setFile { s with used := Function.update s.used i true } (.dyn i)
          ⟨0, false, false, fd, none⟩) := by
  unfold allocDynfile
  cases hfind : (List.finRange 64).find? fun i => !s.used i with
  | none =>
    refine .inl ⟨fun i => ?_, rfl⟩
    have hno := List.find?_eq_none.mp hfind i (List.mem_finRange i)
    rwa [Bool.not_eq_true', Bool.not_eq_false] at hno
  | some i =>
    have hfree := List.find?_some hfind
    exact .inr ⟨i, by rwa [Bool.not_eq_true'] at hfree, rfl⟩

theorem full_abs (h : Inv s) (hall : ∀ i, s.used i = true) : (abs s).Full := by
  intro i
  obtain ⟨fd, st, hhas⟩ := h.has (f := .dyn i) (hall i)
  rw [hhas.stream]
  rfl

theorem Inv.not_owned_free (h : Inv s) : ¬Owned s s.fds.free := by
  have hnone := Slots.get_free s.fds
  rintro (hlow | ⟨i, hi, hfile⟩)
  · have hsome := h.std ⟨s.fds.free, hlow⟩
    rw [hnone] at hsome
    cases hsome
  · have hsome := (h.live i hi).2
    rw [hfile, hnone] at hsome
    cases hsome

theorem same_of_get {fds : Slots (Desc UInt8)} (h : Inv s) (hget : ∀ j, fds.get j = s.fds.get j) :
    Inv { s with fds := fds } ∧ abs { s with fds := fds } = abs s := by
  have hfun : Slots.get fds = Slots.get s.fds := funext hget
  refine ⟨⟨fun i => ?_, fun i hi => ?_, h.alone, h.tab, h.once⟩, ?_⟩
  · rw [hget]
    exact h.std i
  · rw [hget]
    exact h.live i hi
  · rw [abs, abs, Streams.mk.injEq]
    dsimp only
    rw [hfun]
    exact ⟨rfl, rfl, rfl⟩

theorem openFile_cases (h : Inv s) (opened : Option (Desc UInt8)) :
    ((opened = none ∨ ∀ i, s.used i = true) ∧ (openFile s opened).1 = none ∧
        Inv (openFile s opened).2 ∧ abs (openFile s opened).2 = abs s) ∨
      ∃ i d, opened = some d ∧ (openFile s opened).1 = some (.dyn i) ∧
        Adds s (openFile s opened).2 i s.fds.free d := by
  cases opened with
  | none => exact .inl ⟨.inl rfl, rfl, h, rfl⟩
  | some d =>
    have hadd : ∀ j, Slots.get (s.fds.add d) j =
        if j = s.fds.free then some d else s.fds.get j := fun j => Slots.get_add
    obtain ⟨hall, halloc⟩ | ⟨i, hi, halloc⟩ :=
      allocDynfile_cases { s with fds := s.fds.add d } s.fds.free
    · left
      rw [openFile, halloc]
      refine ⟨.inr hall, rfl, same_of_get h fun j => ?_⟩
      rw [Slots.get_set_none, hadd]
      split_ifs with hj
      · rw [hj, Slots.get_free]
      · rfl
    · right
      rw [openFile, halloc]
      exact ⟨i, d, rfl, rfl, hi, h.not_owned_free, rfl, rfl, rfl, (hadd _).trans (if_pos rfl),
        fun j hj => (hadd j).trans (if_neg hj)⟩

theorem update_loose_free (s : State) :
    Function.update (abs s).loose s.fds.free none = (abs s).loose := by
  rw [Function.update_eq_self_iff, abs]
  dsimp only
  rw [Slots.get_free, ite_self]

theorem child_of_adds (h : Inv s) (ha : Adds s s' i fd d) : (abs s).child (.dyn i) = false := by
  rw [← Bool.not_eq_true, child_iff]
  rintro ⟨k, e, hk, he⟩
  obtain ⟨j, he', hj, -⟩ := h.tab k e hk
  obtain rfl := File.dyn.inj (he.symm.trans he')
  rw [ha.free] at hj
  cases hj

theorem fopen_lawful (h : Inv s) (opened : Option (Desc UInt8)) :
    Inv (next s (.fopen opened)) ∧ Lawful s (.fopen opened) := by
  obtain ⟨hwhy, hnone, hinv, habs⟩ | ⟨i, d, hopened, hsome, ha⟩ := openFile_cases h opened
  · refine ⟨hinv, .inl ⟨congrArg Result.file hnone, habs, ?_⟩⟩
    exact hwhy.imp_right (full_abs h)
  · obtain ⟨hnew, habs⟩ := abs_of_adds h ha
    refine ⟨h.adds ha, .inr ⟨.dyn i, d, hopened, congrArg Result.file hsome, hnew, ?_⟩⟩
    have hchild : Function.update (abs s).child (.dyn i) false = (abs s).child :=
      Function.update_eq_self_iff.mpr (child_of_adds h ha).symm
    refine habs.trans ?_
    rw [update_loose_free, hchild]
    rfl

theorem Inv.record (h : Inv s) (hf : Has s (.dyn i) fd st) (hnew : (abs s).child (.dyn i) = false)
    (hroom : s.popenTab.free < s.popenTab.length) :
    Inv { s with popenTab := s.popenTab.set s.popenTab.free (some (.dyn i, fd)) } ∧
      abs { s with popenTab := s.popenTab.set s.popenTab.free (some (.dyn i, fd)) } =
        { abs s with child := Function.update (abs s).child (.dyn i) true } := by
  have hget : ∀ k, Slots.get (s.popenTab.set s.popenTab.free (some (.dyn i, fd))) k =
      if k = s.popenTab.free then some (.dyn i, fd) else s.popenTab.get k :=
    fun k => Slots.get_set hroom
  have hfile : (s.files (.dyn i)).file = fd := Option.some.inj hf.fileFd
  have hother : ∀ k e, s.popenTab.get k = some e → e.1 ≠ .dyn i := by
    intro k e hk he
    have hsome := child_iff.mpr ⟨k, e, hk, he⟩
    rw [hnew] at hsome
    cases hsome
  constructor
  · refine ⟨h.std, h.live, h.alone, fun k e hk => ?_, fun k l e e' hk hl heq => ?_⟩
    · dsimp only at hk
      rw [hget] at hk
      split_ifs at hk with hfree
      · obtain rfl := Option.some.inj hk
        exact ⟨i, rfl, hf.isOpen, hfile⟩
      · exact h.tab k e hk
    · dsimp only at hk hl
      rw [hget] at hk hl
      split_ifs at hk hl with hk' hl' hl'
      · rw [hk', hl']
      · obtain rfl := Option.some.inj hk
        exact absurd heq.symm (hother l e' hl)
      · obtain rfl := Option.some.inj hl
        exact absurd heq (hother k e hk)
      · exact h.once k l e e' hk hl heq
  · have hchild : (abs { s with
        popenTab := s.popenTab.set s.popenTab.free (some (.dyn i, fd)) }).child =
        Function.update (abs s).child (.dyn i) true := by
      funext g
      rw [Bool.eq_iff_iff, child_iff]
      dsimp only
      by_cases hg : g = .dyn i
      · rw [hg, Function.update_self]
        exact ⟨fun _ => rfl, fun _ => ⟨_, _, (hget _).trans (if_pos rfl), rfl⟩⟩
      · rw [Function.update_of_ne hg, child_iff]
        constructor
        · rintro ⟨k, e, hk, he⟩
          rw [hget] at hk
          split_ifs at hk
          · obtain rfl := Option.some.inj hk
            exact absurd he.symm hg
          · exact ⟨k, e, hk, he⟩
        · rintro ⟨k, e, hk, he⟩
          have hk' : k ≠ s.popenTab.free := by
            rintro rfl
            rw [Slots.get_free] at hk
            cases hk
          exact ⟨k, e, (hget k).trans ((if_neg hk').trans hk), he⟩
    rw [← hchild]
    rfl

theorem popen_lawful (h : Inv s) {opened : Option (Desc UInt8)}
    (hc : Careful s (.popen opened)) :
    Inv (next s (.popen opened)) ∧ Lawful s (.popen opened) := by
  obtain ⟨hwhy, hnone, hinv, habs⟩ | ⟨i, d, hopened, hsome, ha⟩ := openFile_cases h opened
  · have hpopen : popen s opened = (none, (openFile s opened).2) := by
      rw [popen, ← Prod.mk.eta (p := openFile s opened), hnone]
    rw [next, Lawful, next, step, hpopen]
    exact ⟨hinv, .inl ⟨rfl, habs, hwhy.imp_right (full_abs h)⟩⟩
  · have hfree : ¬∀ j, s.used j = true := by
      intro hall
      have hused := ha.free
      rw [hall i] at hused
      cases hused
    have hne : opened ≠ none := by
      rw [hopened]
      exact Option.some_ne_none d
    have hroom : (openFile s opened).2.popenTab.free < (openFile s opened).2.popenTab.length := by
      rw [ha.popenTab]
      exact (hc.resolve_left hne).resolve_left hfree
    have hpopen : popen s opened = (some (.dyn i), { (openFile s opened).2 with
        popenTab := (openFile s opened).2.popenTab.set (openFile s opened).2.popenTab.free
          (some (.dyn i, s.fds.free)) }) := by
      rw [popen, ← Prod.mk.eta (p := openFile s opened), hsome]
      exact if_pos hroom
    obtain ⟨hnew, habs⟩ := abs_of_adds h ha
    have hchild : (abs (openFile s opened).2).child (.dyn i) = false := by
      rw [habs]
      exact child_of_adds h ha
    obtain ⟨hinv, hrecord⟩ := (h.adds ha).record ha.has hchild hroom
    rw [next, Lawful, next, step, hpopen]
    refine ⟨hinv, .inr ⟨.dyn i, d, hopened, rfl, hnew, hrecord.trans ?_⟩⟩
    rw [habs, update_loose_free]
    rfl

theorem fdopen_lawful (h : Inv s) {fd : ℤ} (hc : Careful s (.fdopen fd)) :
    Inv (next s (.fdopen fd)) ∧ Lawful s (.fdopen fd) := by
  by_cases hfd : fd < 0
  · have hstep : step s (.fdopen fd) = (.file none, s) := by
      rw [step, fdopen, if_pos hfd]
    rw [next, Lawful, next, hstep]
    exact ⟨h, .inl ⟨rfl, rfl, .inl hfd⟩⟩
  · have hstep : step s (.fdopen fd) =
        (.file (allocDynfile s fd.toNat).1, (allocDynfile s fd.toNat).2) := by
      rw [step, fdopen, if_neg hfd]
    rw [next, Lawful, next, hstep]
    obtain ⟨hall, halloc⟩ | ⟨i, hi, halloc⟩ := allocDynfile_cases s fd.toNat
    · rw [halloc]
      exact ⟨h, .inl ⟨rfl, rfl, .inr (full_abs h hall)⟩⟩
    · have hroom : ¬∀ i, s.used i = true := by
        intro hall
        rw [hall i] at hi
        cases hi
      have hloose := (hc.resolve_left hfd).resolve_left hroom
      obtain ⟨d, hd⟩ := Option.ne_none_iff_exists'.mp hloose
      have hd' := hd
      rw [abs] at hd'
      dsimp only at hd'
      split_ifs at hd' with hown
      rw [halloc]
      have ha : Adds s (setFile { s with used := Function.update s.used i true } (.dyn i)
          ⟨0, false, false, fd.toNat, none⟩) i fd.toNat d :=
        ⟨hi, hown, rfl, rfl, rfl, hd', fun _ _ => rfl⟩
      obtain ⟨hnew, habs⟩ := abs_of_adds h ha
      exact ⟨h.adds ha, .inr ⟨.dyn i, d, hd, rfl, hnew, habs⟩⟩

/-! ### Closing -/

theorem Inv.stream_on (h : Inv s) (hf : Has s f fd st) {op : Op} (hop : ¬op.Closes)
    (hsafe : Safe st ((abs s).child f) op) :
    Inv (perform s f op).2 ∧
      ((perform s f op).1, abs (perform s f op).2) = (abs s).on f op := by
  obtain ⟨hresult, hb⟩ := perform_spec hf hop hsafe
  have hon : (abs s).on f op = ((does st op).1, (abs s).put f (some (does st op).2)) := by
    unfold Streams.on
    rw [hf.stream]
    cases op <;> first | rfl | exact absurd trivial hop
  rw [hon, hresult, abs_of_becomes h hf hb]
  exact ⟨h.becomes hb, rfl⟩

theorem fclose_lawful (h : Inv s) (hf : Has s f fd st) (hchild : (abs s).child f = false) :
    Inv (fclose s f) ∧ (Result.code 0, abs (fclose s f)) = (abs s).on f .fclose := by
  have hon : (abs s).on f .fclose =
      (.code 0, if f.isDyn then (abs s).close f else abs s) := by
    rw [Streams.on, hf.stream]
  rw [hon, fclose, hf.fileFd]
  dsimp only
  obtain ⟨i, rfl, rfl⟩ | ⟨i, rfl, hi, hfile⟩ := hf.descriptor
  · have hlow : ¬2 < (i : ℕ) := by
      have hi := i.isLt
      omega
    rw [if_neg hlow]
    exact ⟨h, rfl⟩
  · have hhigh : 2 < fd := by
      have hlive := (h.live i hi).1
      omega
    rw [if_pos hhigh]
    have hd : Drops s (freeDynfile (hostClose s fd) (.dyn i)) i fd := by
      refine ⟨rfl, rfl, fun j => Slots.get_set_none, fun k e => ⟨fun hk => ⟨hk, fun he => ?_⟩,
        fun hk => hk.1⟩⟩
      have hold : s.popenTab.get k = some e := hk
      have hsome := child_iff.mpr ⟨k, e, hold, he⟩
      rw [hchild] at hsome
      cases hsome
    exact ⟨h.drops hf hd, congrArg (Prod.mk _) (abs_of_drops h hf hd)⟩

theorem pclose_lawful (h : Inv s) (hf : Has s f fd st) (exit : ℤ) :
    Inv (pclose s f exit).2 ∧
      (Result.code (pclose s f exit).1, abs (pclose s f exit).2) = (abs s).on f (.pclose exit) := by
  have hon : (abs s).on f (.pclose exit) =
      if (abs s).child f then (.code exit, (abs s).close f) else (.code (-1), abs s) := by
    rw [Streams.on, hf.stream]
  have hchild : (abs s).child f = (s.popenTab.find fun e => e.1 = f).isSome := rfl
  rw [hon, hchild]
  unfold pclose
  cases hfind : s.popenTab.find fun e => e.1 = f with
  | none => exact ⟨h, rfl⟩
  | some k =>
    obtain ⟨e, hk, he⟩ := Slots.find_eq_some hfind
    obtain ⟨i, hi, hused, hfile⟩ := h.tab k e hk
    obtain rfl : f = .dyn i := (of_decide_eq_true he).symm.trans hi
    have hfd : e.2 = fd := hfile.symm.trans (Option.some.inj hf.fileFd)
    dsimp only
    rw [hk]
    dsimp only
    rw [hfd]
    have hd : Drops s (hostClose (freeDynfile { s with popenTab := s.popenTab.set k none }
        (.dyn i)) fd) i fd := by
      refine ⟨rfl, rfl, fun j => Slots.get_set_none, fun l e' => ?_⟩
      have hget : Slots.get (s.popenTab.set k none) l = if l = k then none else s.popenTab.get l :=
        Slots.get_set_none
      constructor
      · intro hl
        have hl' := hget.symm.trans hl
        split_ifs at hl' with hlk
        refine ⟨hl', fun he' => hlk ?_⟩
        exact h.once l k e' e hl' hk (he'.trans hi.symm)
      · rintro ⟨hl, he'⟩
        have hlk : l ≠ k := by
          rintro rfl
          rw [hk] at hl
          obtain rfl := Option.some.inj hl
          exact he' hi
        exact hget.trans ((if_neg hlk).trans hl)
    exact ⟨h.drops hf hd, congrArg (Prod.mk _) (abs_of_drops h hf hd)⟩

/-! ### Runs -/

theorem getchar_lawful (h : Inv s) (hc : Careful s .getchar) :
    Inv (next s .getchar) ∧ Lawful s .getchar := by
  obtain ⟨fd, st, hhas⟩ := h.has (s := s) (f := .iob 0) trivial
  obtain rfl : 0 = fd := Option.some.inj hhas.fileFd
  obtain ⟨hpushed, hthere⟩ := hc st hhas.stream
  have hrem : st.remaining = st.desc.ahead := by
    rw [Stream.remaining, hpushed]
    rfl
  have hmore : 1 ≤ st.remaining.length ∨ st.eof = true := by
    rw [hrem]
    exact hthere.imp_left List.length_pos_iff.mpr
  have htake := Stream.take_of_pushed hpushed hmore
  have hread : (getchar s).1 = (st.take 1).1.head? ∧
      Becomes s (getchar s).2 (.iob 0) 0 (st.take 1).2 := by
    rw [getchar, hostRead_eq hhas, htake]
    rcases Desc.read_cases (d := st.desc) Nat.one_pos with
      ⟨hend, hread⟩ | ⟨k, hpos, hle, hlen, hread⟩
    · rw [hread, hend]
      have hset := becomes_set hhas st.desc
      rw [hpushed] at hset
      exact ⟨rfl, hset⟩
    · obtain rfl : k = 1 := by omega
      have hset := becomes_set hhas (st.desc.advance 1)
      rw [hpushed] at hset
      rw [hread, min_eq_left hlen]
      cases hahead : st.desc.ahead with
      | nil =>
        rw [hahead] at hlen
        exact absurd hlen (by decide)
      | cons c rest => exact ⟨rfl, hset⟩
  have hop : Op.getc.Reads := trivial
  have hon := Streams.on_reads hhas.stream hop
  refine ⟨h.becomes hread.2, ?_⟩
  refine Eq.trans ?_ hon.symm
  rw [does, ← abs_of_becomes h hhas hread.2, ← hread.1]
  rfl

theorem other_eq (h : Inv s) (op : Op) : perform s .other op = (noStream op, s) := by
  cases op with
  | fgets n => rw [perform, fgets, if_pos (.inr rfl)]; rfl
  | ungetc c => rw [perform, ungetc, if_pos (.inl rfl)]; rfl
  | pclose exit =>
    have hnone : (s.popenTab.find fun e => e.1 = .other) = none := by
      cases hfind : s.popenTab.find fun e => e.1 = .other with
      | none => rfl
      | some k =>
        obtain ⟨e, hk, he⟩ := Slots.find_eq_some hfind
        obtain ⟨i, hi, -⟩ := h.tab k e hk
        exact absurd (hi.symm.trans (of_decide_eq_true he)) (by simp)
    rw [perform, pclose, hnone]
    rfl
  | _ => rfl

theorem step_lawful (h : Inv s) {c : Call} (hc : Careful s c) :
    Inv (next s c) ∧ Lawful s c := by
  cases c with
  | fopen opened => exact fopen_lawful h opened
  | fdopen fd => exact fdopen_lawful h hc
  | popen opened => exact popen_lawful h hc
  | getchar => exact getchar_lawful h hc
  | on f op =>
    rcases hc with rfl | ⟨st, hst, hsafe⟩
    · rw [next, Lawful, next, step, other_eq h]
      exact ⟨h, rfl⟩
    · obtain ⟨fd, hhas⟩ := has_of_stream hst
      by_cases hop : op.Closes
      · cases op with
        | fclose => exact fclose_lawful h hhas hsafe
        | pclose exit => exact pclose_lawful h hhas exit
        | _ => exact hop.elim
      · exact h.stream_on hhas hop hsafe

theorem inv_start {fds : Slots (Desc UInt8)} (hstd : ∀ i : Fin 3, (fds.get i).isSome) :
    Inv (start fds) := by
  have hempty : ∀ k, (start fds).popenTab.get k = none := by
    intro k
    rw [start, Slots.get, List.getElem?_replicate]
    split_ifs <;> rfl
  refine ⟨hstd, fun i hi => absurd hi Bool.false_ne_true,
    fun i j hi => absurd hi Bool.false_ne_true, fun k e hk => ?_, fun k l e e' hk => ?_⟩
  · rw [hempty] at hk
    cases hk
  · rw [hempty] at hk
    cases hk

/-- What the reading calls of a run deliver from a stream, on which there are no other calls,
stands in front of what remains. -/
def DeliversOnce (s : State) (calls : List Call) : Prop :=
  ∀ f st, (abs s).stream f = some st → (∀ c ∈ calls, c.target = some f → c.Reads) →
    ∃ st', (abs (Runs.run next s calls)).stream f = some st' ∧
      deliveredTo f s calls ++ st'.remaining = st.remaining

theorem deliversOnce {calls : List Call} (h : Runs.Each next s Lawful calls) :
    DeliversOnce s calls := by
  induction calls generalizing s with
  | nil =>
    intro f st hst _
    exact ⟨st, hst, rfl⟩
  | cons c calls ih =>
    intro f st hst hreads
    obtain ⟨hlawful, hrest⟩ := Runs.each_cons.mp h
    have hnext : ∃ st', (abs (next s c)).stream f = some st' ∧
        (if c.target = some f then (step s c).1.bytes else []) ++ st'.remaining =
          st.remaining := by
      by_cases htarget : c.target = some f
      · rw [if_pos htarget]
        exact hlawful.reads (hreads c List.mem_cons_self htarget) htarget hst
      · rw [if_neg htarget]
        exact ⟨st, hlawful.other htarget hst, rfl⟩
    obtain ⟨st', hst', hbytes⟩ := hnext
    obtain ⟨st'', hst'', hlater⟩ :=
      ih hrest f st' hst' fun d hd => hreads d (List.mem_cons_of_mem c hd)
    exact ⟨st'', hst'', by rw [deliveredTo, List.append_assoc, hlater, hbytes]⟩

end

def fresh (content : List UInt8) (readable : Bool) : Desc UInt8 := ⟨content, 0, readable, true, 0⟩

/-- `stdin` has two bytes. -/
def stdDescriptors : Slots (Desc UInt8) :=
  [some (fresh [0x61, 0x62] true), some (fresh [] false), some (fresh [] false)]

/-- A file is opened, read with a byte pushed back, and closed; and another one, in its slot. -/
def reuse : List Call :=
  [.fopen (some (fresh [0x61, 0x0A] true)), .on (.dyn 0) .getc, .on (.dyn 0) (.ungetc 0x61),
    .on (.dyn 0) (.fgets 9), .on (.dyn 0) .fclose, .fopen (some (fresh [0x63] true)),
    .on (.dyn 0) (.fread 1 1)]

end Aret.Stdio
