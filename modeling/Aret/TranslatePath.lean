/-
The translation of Windows paths to paths of the host.

* `translatePath_contained` — a rooted path that does not climb lies under its
  root, the style of separators does not matter, and other paths are passed
  through;
* `not_translatePath_contained` — `..` climbs out of the prefix, and a root that
  does not fit is terminated behind the buffer.
-/
import Aret.LexPath
import Aret.OutBuf

namespace Aret.HostPath

open LexPath (Under Stays segments slash)

/-- `/drive_`. -/
def driveDir : List UInt8 := [47, 100, 114, 105, 118, 101, 95]

/-- `aret_prefix`, by the environment variable `ARET_PREFIX`. -/
def aretPrefix (env : Option CStr) : CStr :=
  let default : CStr := ⟨[97, 114, 101, 116, 95, 112, 114, 101, 102, 105, 120], by decide⟩
  match env with
  | some p => if p.bytes = [] then default else p
  | none => default

/-- `tolower` of the C locale. -/
def lower (c : UInt8) : UInt8 := if 65 ≤ c ∧ c ≤ 90 then c + 32 else c

def toSlash (c : UInt8) : UInt8 := if c = 92 then slash else c

/-- `win[0] && win[1] == ':' && (win[2] == '\\' || win[2] == '/')`. -/
def isDrive : List UInt8 → Bool
  | _ :: 58 :: sep :: _ => sep = 92 ∨ sep = 47
  | _ => false

/-- `translate_path`: `none` where a byte is stored outside of `out`. -/
def translatePath (pre : CStr) (win : Option CStr) (out : List UInt8) :
    Option (List UInt8) :=
  match win with
  | none => if out.length = 0 then some out else OutBuf.blit out 0 [0]
  | some win =>
    let b : OutBuf UInt8 := ⟨out, 0⟩
    let copied :=
      if isDrive win.bytes then
        (b.print 0 out.length (pre.bytes ++ driveDir ++ (win.bytes.take 1).map lower)).bind
          -- the leading separator is kept
          (OutBuf.fill ((win.bytes.drop 2).map toSlash))
      else if win.bytes.head? = some 92 then
        (b.print 0 out.length pre.bytes).bind (OutBuf.fill (win.bytes.map toSlash))
      else OutBuf.fill (win.bytes.map toSlash) b
    copied.bind fun b => b.close 0

/-! ### The host path -/

section
variable (pre : CStr) (win win' : CStr) (out : List UInt8)

def hostRoot : Option (List UInt8) :=
  if isDrive win.bytes then some (pre.bytes ++ driveDir ++ (win.bytes.take 1).map lower)
  else if win.bytes.head? = some 92 then some pre.bytes
  else none

def below : List UInt8 := (if isDrive win.bytes then win.bytes.drop 2 else win.bytes).map toSlash

def hostPath : List UInt8 := (hostRoot pre win).getD [] ++ below win

def fitting (cap : ℕ) : List UInt8 :=
  (below win).take (cap - 1 - ((hostRoot pre win).getD []).length)

/-- Two spellings of a path that differ in the style of the separators, the first of which says
whether a path without a drive is a path of Windows. -/
def SameSpelling : Prop :=
  win.bytes.map toSlash = win'.bytes.map toSlash ∧
    (win.bytes.head? = some 92 ↔ win'.bytes.head? = some 92)

/-- What a translated path should be: it is terminated in the buffer; a path with a root lies under
it, and so under the prefix; other spellings are translated to the same path; and a path without a
root is passed through up to its separators. -/
def Contained : Prop :=
  ∃ cells, translatePath pre (some win) out = some cells ∧
    cells.length = out.length ∧ (cstr cells).length < out.length ∧
    (∀ root, hostRoot pre win = some root →
      Under root (cstr cells) ∧ Under pre.bytes (cstr cells)) ∧
    (∀ win', SameSpelling win win' → ∃ cells',
      translatePath pre (some win') out = some cells' ∧ cstr cells' = cstr cells) ∧
    (hostRoot pre win = none → cstr cells = (win.bytes.map toSlash).take (out.length - 1))

/-- The root is shorter than the buffer. -/
def Fits : Prop := ((hostRoot pre win).getD []).length < out.length

/-- What is written behind a root never climbs above it. -/
def Keeps : Prop :=
  ∀ root, hostRoot pre win = some root → Stays 0 (segments (fitting pre win out.length)) = true

/-- The root ends in a name that is not written behind it once more. -/
def EndsApart : Prop :=
  ∀ root, hostRoot pre win = some root → ∃ t, (LexPath.resolve root).getLast? = some (.name t) ∧
    .name t ∉ segments (fitting pre win out.length)

end

variable {pre win win' : CStr} {out : List UInt8}

theorem aretPrefix_ne_nil (env : Option CStr) : (aretPrefix env).bytes ≠ [] := by
  unfold aretPrefix
  split
  · split
    · exact List.cons_ne_nil _ _
    · assumption
  · exact List.cons_ne_nil _ _

theorem lower_eq_zero {c : UInt8} (h : lower c = 0) : c = 0 := by
  unfold lower at h
  split at h
  · rename_i hc
    obtain ⟨h65, h90⟩ := hc
    have h65' : 65 ≤ c.toNat := h65
    have h90' : c.toNat ≤ 90 := h90
    have hsum := congrArg UInt8.toNat h
    rw [UInt8.toNat_add] at hsum
    have : (c.toNat + 32) % 2 ^ 8 = 0 := hsum
    omega
  · exact h

theorem toSlash_eq_zero {c : UInt8} (h : toSlash c = 0) : c = 0 := by
  unfold toSlash at h
  split at h
  · exact absurd h (by decide)
  · exact h

theorem zero_notMem_hostPath : 0 ∉ hostPath pre win := by
  have hwin : ∀ l : List UInt8, l ⊆ win.bytes → ∀ f : UInt8 → UInt8, (∀ c, f c = 0 → c = 0) →
      0 ∉ l.map f := by
    intro l hl f hf hmem
    obtain ⟨c, hc, h0⟩ := List.mem_map.mp hmem
    exact win.noNul (hf c h0 ▸ hl hc)
  have hbelow : 0 ∉ below win := by
    unfold below
    split
    · exact hwin _ (List.drop_subset _ _) _ fun _ => toSlash_eq_zero
    · exact hwin _ (List.Subset.refl _) _ fun _ => toSlash_eq_zero
  have hroot : 0 ∉ (hostRoot pre win).getD [] := by
    unfold hostRoot
    split
    · have hdir : (0 : UInt8) ∉ driveDir := by decide
      have hletter := hwin _ (List.take_subset 1 _) lower fun _ => lower_eq_zero
      simp only [Option.getD_some, List.mem_append, not_or]
      exact ⟨⟨pre.noNul, hdir⟩, hletter⟩
    · split
      · exact pre.noNul
      · exact List.not_mem_nil
  exact fun h => (List.mem_append.mp h).elim hroot hbelow

theorem translatePath_eq (hroot : ((hostRoot pre win).getD []).length < out.length) :
    ∃ rest, translatePath pre (some win) out =
        some ((hostPath pre win).take (out.length - 1) ++ 0 :: rest) ∧
      ((hostPath pre win).take (out.length - 1) ++ 0 :: rest).length = out.length := by
  have hstart := OutBuf.shows_start out
  -- The root is printed, or nothing is; then comes the rest.
  obtain ⟨b, hb, hshows⟩ : ∃ b, (if isDrive win.bytes then
        (OutBuf.mk out 0).print 0 out.length
          (pre.bytes ++ driveDir ++ (win.bytes.take 1).map lower)
      else if win.bytes.head? = some 92 then (OutBuf.mk out 0).print 0 out.length pre.bytes
      else some ⟨out, 0⟩) = some b ∧ OutBuf.Shows ((hostRoot pre win).getD []) out.length b := by
    unfold hostRoot at hroot ⊢
    by_cases hd : isDrive win.bytes = true
    · rw [if_pos hd] at hroot ⊢
      rw [if_pos hd]
      exact hstart.print hroot (by rw [List.length_nil, Nat.zero_add]; exact hroot)
    · rw [if_neg hd] at hroot ⊢
      rw [if_neg hd]
      by_cases hh : win.bytes.head? = some 92
      · rw [if_pos hh] at hroot ⊢
        rw [if_pos hh]
        exact hstart.print hroot (by rw [List.length_nil, Nat.zero_add]; exact hroot)
      · rw [if_neg hh, if_neg hh]
        exact ⟨_, rfl, hstart⟩
  obtain ⟨b', hb', hshows'⟩ : ∃ b', OutBuf.fill (below win) b = some b' ∧ _ := hshows.fill hroot
  have hroom : ((hostRoot pre win).getD [] ++
      (below win).take (out.length - 1 - ((hostRoot pre win).getD []).length)).length <
        out.length := by
    rw [List.length_append, List.length_take]
    omega
  obtain ⟨rest, hclose, hlen⟩ := @OutBuf.Shows.close _ _ _ _ 0 hshows' hroom
  have htake : (hostPath pre win).take (out.length - 1) = (hostRoot pre win).getD [] ++
      (below win).take (out.length - 1 - ((hostRoot pre win).getD []).length) := by
    rw [hostPath, List.take_append, List.take_of_length_le (by omega)]
  refine ⟨rest, ?_, by rw [htake]; exact hlen⟩
  rw [htake, ← hclose, translatePath]
  unfold below at hb'
  by_cases hd : isDrive win.bytes = true
  · rw [if_pos hd] at hb hb'
    simp only [if_pos hd, hb, Option.bind_some, hb']
  · rw [if_neg hd] at hb hb'
    by_cases hh : win.bytes.head? = some 92
    · rw [if_pos hh] at hb
      simp only [if_neg hd, if_pos hh, hb, Option.bind_some, hb']
    · rw [if_neg hh] at hb
      obtain rfl := Option.some.inj hb
      simp only [if_neg hd, if_neg hh, hb', Option.bind_some]

theorem translatePath_cstr (hroot : ((hostRoot pre win).getD []).length < out.length) :
    ∃ cells, translatePath pre (some win) out = some cells ∧ cells.length = out.length ∧
      cstr cells = (hostPath pre win).take (out.length - 1) ∧ (cstr cells).length < out.length := by
  obtain ⟨rest, heq, hlen⟩ := translatePath_eq hroot
  have hnul : 0 ∉ (hostPath pre win).take (out.length - 1) :=
    fun h => zero_notMem_hostPath (List.mem_of_mem_take h)
  refine ⟨_, heq, hlen, cstr_append hnul rest, ?_⟩
  rw [cstr_append hnul rest, List.length_take]
  omega

/-! ### Containment -/

theorem isDrive_iff {bs : List UInt8} :
    isDrive bs = true ↔ ∃ c sep rest, bs = c :: 58 :: sep :: rest ∧ toSlash sep = slash := by
  constructor
  · intro h
    unfold isDrive at h
    split at h
    · rename_i c sep rest
      refine ⟨c, sep, rest, rfl, ?_⟩
      rcases of_decide_eq_true h with rfl | rfl <;> rfl
    · exact nomatch h
  · rintro ⟨c, sep, rest, rfl, hsep⟩
    have h : sep = 92 ∨ sep = 47 := by
      unfold toSlash at hsep
      split at hsep
      · exact Or.inl ‹_›
      · exact Or.inr hsep
    exact decide_eq_true h

theorem toSlash_colon {c : UInt8} (h : toSlash c = 58) : c = 58 := by
  unfold toSlash at h
  split at h
  · exact absurd h (by decide)
  · exact h

theorem head_below {root : List UInt8} (hroot : hostRoot pre win = some root) :
    (below win).head? = some slash := by
  unfold hostRoot at hroot
  unfold below
  by_cases hd : isDrive win.bytes = true
  · obtain ⟨c, sep, rest, hbytes, hsep⟩ := isDrive_iff.mp hd
    rw [if_pos hd, hbytes]
    exact congrArg some hsep
  · rw [if_neg hd] at hroot ⊢
    split at hroot
    · rename_i hh
      rw [List.head?_map, hh]
      rfl
    · exact nomatch hroot

theorem under_hostRoot (hpre : pre.bytes ≠ []) {root : List UInt8}
    (hroot : hostRoot pre win = some root) : Under pre.bytes root ∧ root ≠ [] := by
  unfold hostRoot at hroot
  split at hroot
  · rename_i hd
    obtain ⟨c, sep, rest, hbytes, _⟩ := isDrive_iff.mp hd
    obtain rfl := Option.some.inj hroot
    rw [hbytes, List.append_assoc]
    refine ⟨LexPath.under_append hpre (Or.inl rfl) ?_, ?_⟩
    · -- A component that starts with `drive_`.
      show Stays 0 (segments (47 :: [100, 114, 105, 118, 101, 95, lower c])) = true
      by_cases hc : lower c = 47
      · rw [hc]
        rfl
      · have hsplit : [100, 114, 105, 118, 101, 95, lower c].splitOn (47 : UInt8) =
            [[100, 114, 105, 118, 101, 95, lower c]] := by
          refine List.splitOn_eq_singleton ?_
          simp only [List.mem_cons, List.not_mem_nil, or_false, not_or]
          exact ⟨by decide, by decide, by decide, by decide, by decide, by decide, Ne.symm hc⟩
        have hsegs := LexPath.segments_append [] [100, 114, 105, 118, 101, 95, lower c]
        rw [List.nil_append] at hsegs
        rw [hsegs, segments, segments, hsplit]
        rfl
    · exact List.append_ne_nil_of_left_ne_nil hpre _
  · split at hroot
    · obtain rfl := Option.some.inj hroot
      exact ⟨LexPath.under_refl _, hpre⟩
    · cases hroot

theorem head_fitting {root : List UInt8} {cap : ℕ} (hroot : hostRoot pre win = some root) :
    (fitting pre win cap).head? = some slash ∨ fitting pre win cap = [] := by
  rcases hfit : fitting pre win cap with _ | ⟨c, rest⟩
  · exact Or.inr rfl
  · refine Or.inl ?_
    rw [← head_below hroot, ← hfit, fitting, List.head?_take, if_neg]
    intro h0
    rw [fitting, h0, List.take_zero] at hfit
    exact nomatch hfit

theorem cstr_of_root {root cells : List UInt8} (hfits : Fits pre win out)
    (hroot : hostRoot pre win = some root)
    (htext : cstr cells = (hostPath pre win).take (out.length - 1)) :
    cstr cells = root ++ fitting pre win out.length := by
  rw [Fits, hroot, Option.getD_some] at hfits
  rw [htext, hostPath, fitting, hroot, Option.getD_some, List.take_append,
    List.take_of_length_le (by omega)]

theorem SameSpelling.symm (h : SameSpelling win win') : SameSpelling win' win :=
  ⟨h.1.symm, h.2.symm⟩

theorem SameSpelling.drive (h : SameSpelling win win') (hd : isDrive win.bytes = true) :
    isDrive win'.bytes = true ∧ win'.bytes.take 1 = win.bytes.take 1 := by
  obtain ⟨c, sep, rest, hbytes, hsep⟩ := isDrive_iff.mp hd
  obtain ⟨hmap, hhead⟩ := h
  rw [hbytes] at hmap hhead
  match hwin : win'.bytes with
  | [] | [_] | [_, _] =>
    rw [hwin] at hmap
    simp at hmap
  | c' :: x :: sep' :: rest' =>
    rw [hwin] at hmap hhead
    simp only [List.map_cons, List.cons.injEq, List.head?_cons, Option.some.injEq] at hmap hhead
    obtain ⟨hc, hx, hsep', _⟩ := hmap
    obtain rfl : x = 58 := toSlash_colon hx.symm
    have hcc : c' = c := by
      by_cases h92 : c = 92
      · rw [h92, hhead.mp h92]
      · rw [toSlash, toSlash, if_neg h92, if_neg (fun h => h92 (hhead.mpr h))] at hc
        exact hc.symm
    rw [hbytes, hcc]
    exact ⟨isDrive_iff.mpr ⟨c, sep', rest', rfl, hsep'.symm.trans hsep⟩, rfl⟩

theorem SameSpelling.host_eq (pre : CStr) (h : SameSpelling win win') :
    hostRoot pre win' = hostRoot pre win ∧ below win' = below win := by
  unfold hostRoot below
  by_cases hd : isDrive win.bytes = true
  · obtain ⟨hd', htake⟩ := h.drive hd
    rw [if_pos hd, if_pos hd, if_pos hd', if_pos hd', htake, List.map_drop, List.map_drop, h.1]
    exact ⟨rfl, rfl⟩
  · have hd' : ¬ isDrive win'.bytes = true := fun hd' => hd (h.symm.drive hd').1
    rw [if_neg hd, if_neg hd, if_neg hd', if_neg hd', h.1]
    simp only [h.2, and_self]

theorem translatePath_eq_none (hout : 1 ≤ out.length) (h : ¬Fits pre win out) :
    translatePath pre (some win) out = none := by
  -- once the position is behind the buffer nothing is filled in, and the end is stored outside
  have hfull : ∀ {b : OutBuf UInt8}, b.cells.length = out.length → out.length ≤ b.pos →
      ∀ xs, (OutBuf.fill xs b).bind (·.close 0) = none := by
    intro b hlen hpos xs
    have hroom : ¬b.Room := by
      rintro (hnil | hlt)
      · rw [hnil, List.length_nil] at hlen
        omega
      · omega
    have hfill : OutBuf.fill xs b = some b := by
      cases xs with
      | nil => rfl
      | cons x xs => rw [OutBuf.fill, if_neg hroom]
    rw [hfill, Option.bind_some, OutBuf.close, OutBuf.blit, if_neg]
    rw [List.length_singleton]
    omega
  have hprint : ∀ text : List UInt8, out.length ≤ text.length → ∀ xs,
      (((OutBuf.mk out 0).print 0 out.length text).bind (OutBuf.fill xs)).bind (·.close 0) =
        none := by
    intro text htext xs
    cases hb : (OutBuf.mk out 0).print 0 out.length text with
    | none => rfl
    | some b =>
      rw [OutBuf.print, if_neg (by omega)] at hb
      obtain ⟨cells, hblit, rfl⟩ := Option.map_eq_some_iff.mp hb
      refine hfull (OutBuf.length_blit hblit) ?_ xs
      dsimp only
      omega
  unfold Fits hostRoot at h
  rw [translatePath]
  split_ifs at h ⊢ with hd hh
  · exact hprint _ (Nat.le_of_not_lt h) _
  · exact hprint _ (Nat.le_of_not_lt h) _
  · exact absurd hout h

theorem contained_of_fits (hpre : pre.bytes ≠ []) (hfits : Fits pre win out)
    (hkeeps : Keeps pre win out) : Contained pre win out := by
  obtain ⟨cells, heq, hlen, htext, hterm⟩ := translatePath_cstr hfits
  refine ⟨cells, heq, hlen, hterm, ?_, ?_, ?_⟩
  · intro root hr
    obtain ⟨hunder, hne⟩ := under_hostRoot hpre hr
    have hin := LexPath.under_append hne (head_fitting hr) (hkeeps root hr)
    rw [← cstr_of_root hfits hr htext] at hin
    exact ⟨hin, hunder.trans hin⟩
  · intro win' hsame
    obtain ⟨hroot', hbelow'⟩ := hsame.host_eq pre
    obtain ⟨cells', heq', _, htext', _⟩ :=
      @translatePath_cstr pre win' out (hroot'.symm ▸ hfits)
    exact ⟨cells', heq', by rw [htext', htext, hostPath, hostPath, hroot', hbelow']⟩
  · intro hr
    have hd : ¬ isDrive win.bytes = true := by
      intro hd
      rw [hostRoot, if_pos hd] at hr
      exact nomatch hr
    rw [htext, hostPath, hr, Option.getD_none, List.nil_append, below, if_neg hd]

theorem Contained.fits (hout : 1 ≤ out.length) (h : Contained pre win out) : Fits pre win out := by
  by_contra hfits
  obtain ⟨cells, heq, -⟩ := h
  rw [translatePath_eq_none hout hfits] at heq
  exact nomatch heq

theorem Contained.keeps (hpre : pre.bytes ≠ []) (hout : 1 ≤ out.length)
    (hends : EndsApart pre win out) (h : Contained pre win out) : Keeps pre win out := by
  intro root hr
  have hfits := h.fits hout
  obtain ⟨cells, heq, -, -, hunder, -⟩ := h
  obtain ⟨cells', heq', -, htext, -⟩ := translatePath_cstr hfits
  obtain rfl := Option.some.inj (heq'.symm.trans heq)
  obtain ⟨t, hlast, hname⟩ := hends root hr
  have hin := (hunder root hr).1
  rw [cstr_of_root hfits hr htext] at hin
  exact LexPath.stays_of_under_append (under_hostRoot hpre hr).2 (head_fitting hr) hlast hname hin

/-- A path is translated as it should be where its root fits into the buffer and what is written
behind the root does not climb.  A root that does not fit never is; and a path that climbs is not,
but where it names the end of its root again. -/
theorem translatePath_contained (env : Option CStr) (win : CStr) (out : List UInt8)
    (hout : 1 ≤ out.length) :
    (Fits (aretPrefix env) win out → Keeps (aretPrefix env) win out →
        Contained (aretPrefix env) win out) ∧
      (EndsApart (aretPrefix env) win out → (Contained (aretPrefix env) win out ↔
        Fits (aretPrefix env) win out ∧ Keeps (aretPrefix env) win out)) ∧
      (¬Fits (aretPrefix env) win out →
        translatePath (aretPrefix env) (some win) out = none) := by
  have hpre := aretPrefix_ne_nil env
  refine ⟨contained_of_fits hpre, fun hends => ?_, translatePath_eq_none hout⟩
  exact ⟨fun h => ⟨h.fits hout, h.keeps hpre hout hends⟩, fun h => contained_of_fits hpre h.1 h.2⟩

/-- `C:\a\..\b` in a buffer of 32 bytes. -/
theorem translatePath_contained_drive :
    Contained (aretPrefix none) ⟨[67, 58, 92, 97, 92, 46, 46, 92, 98], by decide⟩
      (List.replicate 32 0) := by
  obtain ⟨hcontained, -⟩ := translatePath_contained none
    ⟨[67, 58, 92, 97, 92, 46, 46, 92, 98], by decide⟩ (List.replicate 32 0) (by decide)
  refine hcontained (by rw [Fits]; decide) fun root hr => ?_
  decide

/-- `C:\..\..\x` lies outside of the prefix, and the prefix of `\x` does not fit into 8 bytes. -/
theorem not_translatePath_contained :
    ¬Contained (aretPrefix none) ⟨[67, 58, 92, 46, 46, 92, 46, 46, 92, 120], by decide⟩
        (List.replicate 64 0) ∧
      translatePath (aretPrefix none) (some ⟨[92, 120], by decide⟩) (List.replicate 8 0) =
        none := by
  refine ⟨?_, by decide⟩
  rintro ⟨cells, heq, -, -, hunder, -⟩
  obtain ⟨-, names, hnames⟩ := (hunder _ rfl).2
  have hhead : (translatePath (aretPrefix none)
      (some ⟨[67, 58, 92, 46, 46, 92, 46, 46, 92, 120], by decide⟩) (List.replicate 64 0)).map
        (fun cells => (LexPath.resolve (cstr cells)).head?) = some (some (.name [120])) := by decide
  have hprefix : LexPath.resolve (aretPrefix none).bytes = [.name (aretPrefix none).bytes] := by
    decide
  rw [heq, Option.map_some, hnames, hprefix] at hhead
  exact absurd (Option.some.inj (Option.some.inj hhead)) (by decide)

end Aret.HostPath
