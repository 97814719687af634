/-
What a loader binds in an image with a rebuilt import directory.

* `inject_binds_iff` — they are the recovered ones if and only if no DLL has a
  gap between its slots and no name a NUL.
-/
import Aret.ImportDir
import Mathlib.Tactic

namespace Aret.Unpack

open ByteBuf

/-! ### The blob -/

theorem closeText_eq (blob : Buf) : ∃ pad, closeText blob = blob ++ ([0] ++ pad) ∧
    pad.length ≤ 1 := by
  rw [closeText]
  split_ifs
  · exact ⟨[0], by simp, le_rfl⟩
  · exact ⟨[], by simp, Nat.zero_le _⟩

variable {base : ℕ}

/-- The entry of a lookup table and the name that it leads to, in what was appended after `lo`. -/
def NameAt (base lo : ℕ) (blob : Buf) (e : ℕ × Buf) (rva : ℕ) : Prop :=
  ∃ off, rva = base + off ∧ lo ≤ off ∧ Holds blob off ([0, 0] ++ e.2 ++ [0])

theorem NameAt.imp {lo : ℕ} {blob blob' : Buf} {e : ℕ × Buf} {rva : ℕ}
    (h : NameAt base lo blob e rva)
    (hkeep : ∀ off bs, lo ≤ off → Holds blob off bs → Holds blob' off bs) :
    NameAt base lo blob' e rva := by
  obtain ⟨off, hrva, hlo, hold⟩ := h
  exact ⟨off, hrva, hlo, hkeep off _ hlo hold⟩

def namesSize (es : List (ℕ × Buf)) : ℕ := (es.map fun e => e.2.length + 4).sum

theorem foldl_addName (es : List (ℕ × Buf)) : ∀ (blob : Buf) (ilt : List ℕ) (lo : ℕ),
    lo ≤ blob.length → ∃ ext rvas, es.foldl (fun s e => addName base s e.2) (blob, ilt) =
        (blob ++ ext, ilt ++ rvas) ∧ ext.length ≤ namesSize es ∧
      List.Forall₂ (NameAt base lo (blob ++ ext)) es rvas := by
  induction es with
  | nil =>
    intro blob ilt lo hlo
    exact ⟨[], [], by simp, le_rfl, .nil⟩
  | cons e es ih =>
    intro blob ilt lo hlo
    obtain ⟨pad, hpad, hlen⟩ := closeText_eq (blob ++ [0, 0] ++ e.2)
    obtain ⟨ext, rvas, hfold, hsize, hall⟩ := ih (closeText (blob ++ [0, 0] ++ e.2))
      (ilt ++ [base + blob.length]) lo (by rw [hpad]; simp only [List.length_append]; omega)
    have hblob : closeText (blob ++ [0, 0] ++ e.2) ++ ext =
        blob ++ ([0, 0] ++ e.2 ++ [0] ++ (pad ++ ext)) := by
      rw [hpad]
      simp
    refine ⟨[0, 0] ++ e.2 ++ [0] ++ (pad ++ ext), (base + blob.length) :: rvas, ?_, ?_, ?_⟩
    · rw [List.foldl_cons]
      show List.foldl _ (closeText (blob ++ [0, 0] ++ e.2), ilt ++ [base + blob.length]) es = _
      rw [hfold, hblob, List.append_assoc ilt, List.singleton_append]
    · have hsum : namesSize (e :: es) = e.2.length + 4 + namesSize es := rfl
      simp only [List.length_append, List.length_cons, List.length_nil]
      omega
    · rw [← hblob]
      refine .cons ⟨blob.length, rfl, hlo, ?_⟩ hall
      rw [hblob]
      exact holds_append_self blob _ _

/-- Where the parts of a descriptor stand in the blob, all after `lo`. -/
structure GroupAt (base lo imageBase : ℕ) (blob : Buf) (g : Buf × List (ℕ × Buf)) (d : Desc)
    (rvas : List ℕ) : Prop where
  names : List.Forall₂ (NameAt base lo blob) g.2 rvas
  ilt : ∃ off, d.ilt = base + off ∧ lo ≤ off ∧ Holds blob off ((rvas ++ [0]).flatMap le32)
  name : ∃ off, d.name = base + off ∧ lo ≤ off ∧ Holds blob off (g.1 ++ [0])
  firstThunk : d.firstThunk = ((g.2.headD (0, [])).1 - imageBase) % 2 ^ 32

theorem GroupAt.imp {lo imageBase : ℕ} {blob blob' : Buf} {g : Buf × List (ℕ × Buf)} {d : Desc}
    {rvas : List ℕ} (h : GroupAt base lo imageBase blob g d rvas)
    (hkeep : ∀ off bs, lo ≤ off → Holds blob off bs → Holds blob' off bs) :
    GroupAt base lo imageBase blob' g d rvas := by
  obtain ⟨io, hio, hlo, hilt⟩ := h.ilt
  obtain ⟨no, hno, hlo', hname⟩ := h.name
  exact ⟨h.names.imp fun _ _ hn => hn.imp hkeep, ⟨io, hio, hlo, hkeep _ _ hlo hilt⟩,
    ⟨no, hno, hlo', hkeep _ _ hlo' hname⟩, h.firstThunk⟩

def groupSize (g : Buf × List (ℕ × Buf)) : ℕ :=
  namesSize g.2 + 4 * (g.2.length + 1) + g.1.length + 2

theorem length_flatMap_le32 (vs : List ℕ) : (vs.flatMap le32).length = 4 * vs.length := by
  induction vs with
  | nil => rfl
  | cons v vs ih =>
    rw [List.flatMap_cons, List.length_append, ih, length_le32, List.length_cons]
    omega

theorem addGroup_spec (imageBase : ℕ) (blob : Buf) (ds : List Desc) (lo : ℕ)
    (hlo : lo ≤ blob.length) (g : Buf × List (ℕ × Buf)) :
    ∃ ext d rvas, addGroup base imageBase (blob, ds) g = (blob ++ ext, ds ++ [d]) ∧
      ext.length ≤ groupSize g ∧ GroupAt base lo imageBase (blob ++ ext) g d rvas := by
  obtain ⟨ext, rvas, hfold, hsize, hnames⟩ := @foldl_addName base g.2 blob [] lo hlo
  rw [List.nil_append] at hfold
  have hrvas := hnames.length_eq
  obtain ⟨pad, hpad, hlen⟩ :=
    closeText_eq (blob ++ ext ++ (rvas ++ [0]).flatMap le32 ++ g.1)
  have hblob : closeText (blob ++ ext ++ (rvas ++ [0]).flatMap le32 ++ g.1) =
      blob ++ (ext ++ ((rvas ++ [0]).flatMap le32 ++ (g.1 ++ [0] ++ pad))) := by
    rw [hpad]
    simp
  refine ⟨ext ++ ((rvas ++ [0]).flatMap le32 ++ (g.1 ++ [0] ++ pad)),
    ⟨base + (blob ++ ext).length, base + (blob ++ ext ++ (rvas ++ [0]).flatMap le32).length,
      ((g.2.headD (0, [])).1 - imageBase) % 2 ^ 32⟩, rvas, ?_, ?_, ?_⟩
  · rw [addGroup, hfold]
    dsimp only
    rw [hblob]
  · have hilt := length_flatMap_le32 (rvas ++ [0])
    simp only [List.length_append, List.length_singleton] at hilt ⊢
    rw [groupSize, hilt]
    omega
  · have hilt := holds_append_self (blob ++ ext) ((rvas ++ [0]).flatMap le32)
      (g.1 ++ [0] ++ pad)
    have hname := holds_append_self (blob ++ ext ++ (rvas ++ [0]).flatMap le32) (g.1 ++ [0]) pad
    rw [List.append_assoc (blob ++ ext)] at hname
    rw [← List.append_assoc]
    refine ⟨hnames.imp fun _ _ hn => hn.imp fun _ _ _ h => h.append _, ⟨_, rfl, ?_, hilt⟩, ⟨_, rfl, ?_, hname⟩, rfl⟩
    · rw [List.length_append]
      omega
    · rw [List.length_append, List.length_append]
      omega

theorem foldl_addGroup (imageBase lo : ℕ) (gs : List (Buf × List (ℕ × Buf))) :
    ∀ (blob : Buf) (ds : List Desc), lo ≤ blob.length →
    ∃ ext ds', gs.foldl (addGroup base imageBase) (blob, ds) = (blob ++ ext, ds ++ ds') ∧
      ext.length ≤ (gs.map groupSize).sum ∧
      List.Forall₂ (fun g d => ∃ rvas, GroupAt base lo imageBase (blob ++ ext) g d rvas) gs ds' := by
  induction gs with
  | nil =>
    intro blob ds hlo
    exact ⟨[], [], by simp, le_rfl, .nil⟩
  | cons g gs ih =>
    intro blob ds hlo
    obtain ⟨ext₁, d, rvas, hadd, hsize₁, hgroup⟩ := @addGroup_spec base imageBase blob ds
      lo hlo g
    obtain ⟨ext₂, ds', hfold, hsize₂, hall⟩ := ih (blob ++ ext₁) (ds ++ [d])
      (by rw [List.length_append]; omega)
    rw [List.append_assoc] at hfold hall
    refine ⟨ext₁ ++ ext₂, d :: ds', ?_, ?_, .cons ⟨rvas, ?_⟩ hall⟩
    · rw [List.foldl_cons, hadd, hfold, List.append_assoc ds, List.singleton_append]
    · rw [List.length_append, List.map_cons, List.sum_cons]
      omega
    · rw [← List.append_assoc]
      exact hgroup.imp fun _ _ _ h => h.append ext₂

/-! ### The descriptors -/

structure DescAt (f : Buf) (off : ℕ) (d : Desc) : Prop where
  ilt : Holds f off (le32 d.ilt)
  name : Holds f (off + 12) (le32 d.name)
  firstThunk : Holds f (off + 16) (le32 d.firstThunk)

section

variable {f bs : Buf} {i : ℕ} {d : Desc}

theorem putDesc_spec (h : i * 20 + 20 ≤ f.length) : (putDesc f i d).length = f.length ∧
    (∀ lo hi, hi ≤ i * 20 ∨ i * 20 + 20 ≤ lo → Agree f (putDesc f i d) lo hi) ∧
    DescAt (putDesc f i d) (i * 20) d := by
  have hroom : ∀ w ∈ [(i * 20, d.ilt), (i * 20 + 12, d.name), (i * 20 + 16, d.firstThunk)],
      i * 20 ≤ w.1 ∧ w.1 + 4 ≤ i * 20 + 20 := by simp
  have hin := fun w hw => (hroom w hw).2.trans h
  obtain ⟨hlen, hagree⟩ := writes_spec hin
  refine ⟨hlen, fun lo hi hdis => hagree lo hi fun w hw => ?_, ?_⟩
  · have := hroom w hw
    omega
  · exact ⟨holds_writes [] hin (by simp),
      holds_writes [_] hin (by simp), holds_writes [_, _] hin nofun⟩

theorem putDescs_spec (ds : List Desc) : ∀ (f : Buf) (i : ℕ), (i + ds.length) * 20 ≤ f.length →
    (putDescs f i ds).length = f.length ∧
      (∀ o bs, Holds f o bs → o + bs.length ≤ i * 20 ∨ (i + ds.length) * 20 ≤ o →
        Holds (putDescs f i ds) o bs) ∧
      ∀ j d, ds[j]? = some d → DescAt (putDescs f i ds) ((i + j) * 20) d := by
  induction ds with
  | nil =>
    intro f i h
    exact ⟨rfl, fun o bs hc _ => hc, nofun⟩
  | cons d ds ih =>
    intro f i h
    rw [List.length_cons] at h ⊢
    have hroom : i * 20 + 20 ≤ f.length := by omega
    obtain ⟨hlen, hagree, hself⟩ := putDesc_spec (d := d) hroom
    obtain ⟨hlen', hkeep, hat⟩ := ih (putDesc f i d) (i + 1) (by omega)
    rw [putDescs]
    refine ⟨hlen'.trans hlen, fun o bs hc hdis => ?_, fun j d' hj => ?_⟩
    · exact hkeep o bs ((hagree _ _ (by omega)).holds hc) (by omega)
    · cases j with
      | zero =>
        obtain rfl := Option.some.inj hj
        rw [Nat.add_zero]
        exact ⟨hkeep _ _ hself.ilt (by rw [length_le32]; omega),
          hkeep _ _ hself.name (by rw [length_le32]; omega),
          hkeep _ _ hself.firstThunk (by rw [length_le32]; omega)⟩
      | succ j =>
        have hrest := hat j d' hj
        rwa [Nat.add_assoc, Nat.add_comm 1 j] at hrest

end

theorem importBlob_spec (imageBase : ℕ) (gs : List (Buf × List (ℕ × Buf))) :
    ∃ ds, (importBlob base imageBase gs).length ≤ descBytes gs + (gs.map groupSize).sum ∧
      descBytes gs ≤ (importBlob base imageBase gs).length ∧
      List.Forall₂ (fun g d => ∃ rvas,
        GroupAt base (descBytes gs) imageBase (importBlob base imageBase gs) g d rvas) gs ds ∧
      (∀ j d, ds[j]? = some d → DescAt (importBlob base imageBase gs) (j * 20) d) ∧
      Holds (importBlob base imageBase gs) (gs.length * 20) (List.replicate 20 0) := by
  obtain ⟨ext, ds, hfold, hsize, hall⟩ := @foldl_addGroup base imageBase (descBytes gs) gs
    (List.replicate (descBytes gs) 0) [] (by rw [List.length_replicate])
  have hlen := hall.length_eq
  have htotal : (List.replicate (descBytes gs) (0 : UInt8) ++ ext).length =
      descBytes gs + ext.length := by
    rw [List.length_append, List.length_replicate]
  obtain ⟨hsame, hkeep, hat⟩ := putDescs_spec ds (List.replicate (descBytes gs) 0 ++ ext) 0
    (by rw [htotal, descBytes]; omega)
  have hblob : importBlob base imageBase gs =
      putDescs (List.replicate (descBytes gs) 0 ++ ext) 0 ds := by
    rw [importBlob, hfold, List.nil_append]
  rw [hblob]
  refine ⟨ds, by omega, by omega, hall.imp fun g d h => ?_, fun j d hj => ?_, ?_⟩
  · obtain ⟨rvas, hgroup⟩ := h
    refine ⟨rvas, hgroup.imp fun off bs hlo hold => hkeep off bs hold (.inr ?_)⟩
    rw [descBytes] at hlo
    omega
  · have hdesc := hat j d hj
    rwa [Nat.zero_add] at hdesc
  · refine hkeep _ _ ?_ (.inr (by omega))
    have hzeros := holds_append_self (List.replicate (gs.length * 20) 0) (List.replicate 20 0) ext
    rw [List.length_replicate, ← List.append_assoc, List.replicate_append_replicate] at hzeros
    rwa [descBytes, Nat.succ_mul]

/-! ### The headers -/

/-- A PE32 image whose file offsets are its RVAs: with two data directories at least, and sections
that start inside the file. -/
structure RawImage (f : Buf) : Prop where
  accepted : Accepted f
  low : 0x40 ≤ f.length
  directories : 112 ≤ rd16 f (lfanew f + 20)
  sections : 0 < numSections f
  table : sectionTable f + numSections f * 40 ≤ f.length
  raw : ∀ i, i < numSections f →
    rd32 f (sectionTable f + i * 40 + 20) = rd32 f (sectionTable f + i * 40 + 12) ∧
      rd32 f (sectionTable f + i * 40 + 12) ≤ f.length

section

variable {f : Buf} {o : ℕ}

theorem bestSection_spec (f : Buf) (st n : ℕ) : (bestSection f st n).2 = 0 ∧ n = 0 ∨
    ∃ i, i < n ∧ bestSection f st n = (st + i * 40, rd32 f (st + i * 40 + 12)) ∧
      ∀ j, j < n → rd32 f (st + j * 40 + 12) ≤ rd32 f (st + i * 40 + 12) := by
  induction n with
  | zero => exact .inl ⟨rfl, rfl⟩
  | succ n ih =>
    rw [bestSection]
    dsimp only
    split_ifs with hbest
    · refine .inr ⟨n, by omega, rfl, fun j hj => ?_⟩
      rcases Nat.lt_succ_iff_lt_or_eq.mp hj with hlt | rfl
      · rcases ih with ⟨-, hzero⟩ | ⟨i, -, heq, hmax⟩
        · omega
        · rw [heq] at hbest
          exact (hmax j hlt).trans hbest
      · exact le_rfl
    · rcases ih with ⟨hzero, -⟩ | ⟨i, hi, heq, hmax⟩
      · omega
      · refine .inr ⟨i, by omega, heq, fun j hj => ?_⟩
        rcases Nat.lt_succ_iff_lt_or_eq.mp hj with hlt | rfl
        · exact hmax j hlt
        · rw [heq] at hbest
          exact (not_le.mp hbest).le

theorem patchDirectory_spec {rva size : ℕ} (h : o + 112 ≤ f.length) (hrva : rva < 2 ^ 32) :
    (patchDirectory f o rva size).length = f.length ∧
      rd32 (patchDirectory f o rva size) (o + 104) = rva ∧
      ∀ lo hi, hi ≤ o + 92 ∨ o + 96 ≤ lo ∧ hi ≤ o + 104 ∨ o + 112 ≤ lo →
        Agree f (patchDirectory f o rva size) lo hi := by
  obtain ⟨ws, hws, heq⟩ : ∃ ws : List (ℕ × ℕ), (∀ w ∈ ws, w.1 = o + 108 ∨ w.1 = o + 92) ∧
      patchDirectory f o rva size = writes f ((o + 104, rva) :: ws) := by
    rw [patchDirectory]
    split_ifs
    · exact ⟨[(o + 108, size), (o + 92, 2)], by simp, rfl⟩
    · exact ⟨[(o + 108, size)], by simp, rfl⟩
  have hat : ∀ w ∈ (o + 104, rva) :: ws, w.1 = o + 104 ∨ w.1 = o + 108 ∨ w.1 = o + 92 :=
    List.forall_mem_cons.mpr ⟨.inl rfl, fun w hw => .inr (hws w hw)⟩
  have hin : ∀ w ∈ (o + 104, rva) :: ws, w.1 + 4 ≤ f.length := by grind
  rw [heq]
  refine ⟨(writes_spec hin).1, rd32_of_holds (holds_writes [] hin ?_) hrva,
    fun lo hi hdis => (writes_spec hin).2 lo hi ?_⟩
  all_goals grind

theorem patchSection_spec {st n stop : ℕ} (hn : 0 < n) (ho : o + 60 ≤ st)
    (h : st + n * 40 ≤ f.length) (hstop : stop < 2 ^ 32) :
    ∃ i, i < n ∧ (∀ j, j < n → rd32 f (st + j * 40 + 12) ≤ rd32 f (st + i * 40 + 12)) ∧
      (patchSection f o st n stop).length = f.length ∧
      rd32 (patchSection f o st n stop) (st + i * 40 + 8) =
        stop - rd32 f (st + i * 40 + 12) ∧
      ∀ lo hi, hi ≤ o + 56 ∨ o + 60 ≤ lo ∧ hi ≤ st + i * 40 + 8 ∨
          st + i * 40 + 12 ≤ lo ∧ hi ≤ st + i * 40 + 16 ∨
          st + i * 40 + 20 ≤ lo ∧ hi ≤ st + i * 40 + 36 ∨ st + n * 40 ≤ lo →
        Agree f (patchSection f o st n stop) lo hi := by
  rcases bestSection_spec f st n with ⟨-, hzero⟩ | ⟨i, hi, hbest, hmax⟩
  · omega
  refine ⟨i, hi, hmax, ?_⟩
  have hend : st + i * 40 + 40 ≤ f.length := by
    have : (i + 1) * 40 ≤ n * 40 := Nat.mul_le_mul_right 40 hi
    omega
  generalize hcover : stop - rd32 f (st + i * 40 + 12) = cover
  obtain ⟨ws, hws, heq⟩ : ∃ ws : List (ℕ × ℕ),
      (∀ w ∈ ws, w.1 = st + i * 40 + 16 ∨ w.1 = st + i * 40 + 36 ∨ w.1 = o + 56) ∧
      patchSection f o st n stop = writes f ((st + i * 40 + 8, cover) :: ws) := by
    simp only [patchSection, hbest, hcover]
    split_ifs
    · exact ⟨[(st + i * 40 + 16, cover), (st + i * 40 + 36, 0xE0000060), (o + 56, _)], by simp, rfl⟩
    · exact ⟨[(st + i * 40 + 16, cover), (st + i * 40 + 36, 0xE0000060)], by simp, rfl⟩
  have hat : ∀ w ∈ (st + i * 40 + 8, cover) :: ws, w.1 = st + i * 40 + 8 ∨
      w.1 = st + i * 40 + 16 ∨ w.1 = st + i * 40 + 36 ∨ w.1 = o + 56 :=
    List.forall_mem_cons.mpr ⟨.inl rfl, fun w hw => .inr (hws w hw)⟩
  have hroom : ∀ w ∈ (st + i * 40 + 8, cover) :: ws, w.1 + 4 ≤ f.length := by grind
  rw [heq]
  refine ⟨(writes_spec hroom).1, rd32_of_holds (holds_writes [] hroom ?_) (by omega),
    fun lo hi hdis => (writes_spec hroom).2 lo hi ?_⟩
  all_goals grind

end

/-- The patched image: the headers that a loader goes by, the blob at `base`, and the last section,
which covers it and still has its bytes at their RVA. -/
structure Installed (f out : Buf) (base : ℕ) (blob : Buf) : Prop where
  length : out.length = base + blob.length
  lfanew : lfanew out = lfanew f
  imageBase : imageBase out = imageBase f
  directory : rd32 out (optHeader f + 104) = base
  holds : ∀ off bs, Holds blob off bs → Holds out (base + off) bs
  covers : ∃ i, i < numSections f ∧
    (∀ j, j < numSections f →
      rd32 f (sectionTable f + j * 40 + 12) ≤ rd32 f (sectionTable f + i * 40 + 12)) ∧
    rd32 out (sectionTable f + i * 40 + 12) = rd32 f (sectionTable f + i * 40 + 12) ∧
    rd32 out (sectionTable f + i * 40 + 20) = rd32 f (sectionTable f + i * 40 + 12) ∧
    rd32 f (sectionTable f + i * 40 + 12) ≤ base ∧
    rd32 out (sectionTable f + i * 40 + 12) + rd32 out (sectionTable f + i * 40 + 8) =
      base + blob.length

theorem align4_eq (f : Buf) : ∃ pad, align4 f = f ++ pad ∧ pad.length ≤ 3 := by
  refine ⟨List.replicate ((4 - f.length % 4) % 4) 0, rfl, ?_⟩
  rw [List.length_replicate]
  omega

theorem installed_inject {f : Buf} {iat : List IatEntry} (hf : RawImage f) (hne : iat ≠ [])
    (hsize : (align4 f).length + (importBlob (align4 f).length (imageBase f) (groups iat)).length <
      2 ^ 31) :
    Installed f (injectImportDirectory f iat) (align4 f).length
      (importBlob (align4 f).length (imageBase f) (groups iat)) := by
  obtain ⟨pad, hpad, -⟩ := align4_eq f
  rw [injectImportDirectory, if_neg hne, if_neg (not_not_intro hf.accepted)]
  dsimp only
  generalize importBlob (align4 f).length (imageBase f) (groups iat) = blob at hsize ⊢
  generalize hbase : (align4 f).length = base at hsize ⊢
  have hlow : f.length ≤ base := by
    rw [← hbase, hpad, List.length_append]
    omega
  have htable := hf.table
  have hdirs := hf.directories
  have hsections := hf.sections
  have hst : sectionTable f = optHeader f + rd16 f (Unpack.lfanew f + 20) := rfl
  have ho : optHeader f = Unpack.lfanew f + 24 := rfl
  have hF : (align4 f ++ blob).length = base + blob.length := by rw [List.length_append, hbase]
  have hfF : ∀ lo hi, hi ≤ f.length → Agree f (align4 f ++ blob) lo hi := by
    intro lo hi hhi
    rw [hpad, List.append_assoc]
    exact agree_append hhi _
  obtain ⟨hlenG, hdir, hagreeG⟩ := @patchDirectory_spec (align4 f ++ blob) (optHeader f)
    base (descBytes (groups iat)) (by omega) (by omega)
  generalize patchDirectory (align4 f ++ blob) (optHeader f) base (descBytes (groups iat)) = G
    at hlenG hdir hagreeG ⊢
  obtain ⟨i, hi, hmax, hlenO, hcover, hagreeO⟩ := @patchSection_spec G (optHeader f)
    (sectionTable f) (numSections f) (base + blob.length) hsections (by omega)
    (by omega) (by omega)
  generalize patchSection G (optHeader f) (sectionTable f) (numSections f) (base + blob.length) =
    out at hlenO hcover hagreeO ⊢
  obtain ⟨hraw, hva⟩ := hf.raw i hi
  -- a number of the headers outside the patches
  have hkept : ∀ p, p + 4 ≤ optHeader f + 56 ∨
        p = sectionTable f + i * 40 + 12 ∨ p = sectionTable f + i * 40 + 20 →
      p + 4 ≤ f.length → rd32 out p = rd32 f p := by
    intro p hp hlen
    refine Agree.rd32 ((hfF _ _ hlen).trans ((hagreeG _ _ ?_).trans (hagreeO _ _ ?_)))
    · omega
    · omega
  have hvaG : ∀ j, j < numSections f → rd32 G (sectionTable f + j * 40 + 12) =
      rd32 f (sectionTable f + j * 40 + 12) := by
    intro j hj
    exact Agree.rd32 ((hfF _ _ (by omega)).trans (hagreeG _ _ (by omega)))
  have hlow40 := hf.low
  have hlf : Unpack.lfanew out = Unpack.lfanew f := hkept _ (by omega) (by omega)
  refine ⟨by omega, hlf, ?_, ?_, fun off bs hold => ?_, i, hi, fun j hj => ?_, ?_, ?_, by omega, ?_⟩
  · rw [Unpack.imageBase, Unpack.imageBase, optHeader, hlf]
    exact hkept _ (by omega) (by omega)
  · rw [← hdir]
    exact Agree.rd32 (hagreeO _ _ (by omega))
  · have hold' : Holds (align4 f ++ blob) (base + off) bs := hbase ▸ hold.shift (align4 f)
    exact Agree.holds ((hagreeG _ _ (by omega)).trans (hagreeO _ _ (by omega))) hold'
  · rw [← hvaG j hj, ← hvaG i hi]
    exact hmax j hj
  · exact hkept _ (by omega) (by omega)
  · rw [hkept _ (by omega) (by omega), hraw]
  · rw [hkept _ (by omega) (by omega), hcover, hvaG i hi]
    omega

/-! ### Reading -/

theorem readThunks_eq {out : Buf} (rvas : List ℕ) : ∀ k off,
    Holds out off ((rvas ++ [0]).flatMap le32) → (∀ r ∈ rvas, 0 < r ∧ r < 2 ^ 32) →
    rvas.length < k → readThunks out k off = rvas := by
  induction rvas with
  | nil =>
    intro k off hold _ hk
    obtain ⟨k, rfl⟩ : ∃ k', k = k' + 1 := ⟨k - 1, by omega⟩
    have hzero : rd32 out off = 0 := by
      rw [List.nil_append, List.flatMap_singleton] at hold
      exact rd32_of_holds hold (by norm_num)
    rw [readThunks, if_pos hzero]
  | cons r rvas ih =>
    intro k off hold hall hk
    rw [List.length_cons] at hk
    obtain ⟨k, rfl⟩ : ∃ k', k = k' + 1 := ⟨k - 1, by omega⟩
    obtain ⟨hpos, hlt⟩ := hall r List.mem_cons_self
    rw [List.cons_append, List.flatMap_cons] at hold
    have hr : rd32 out off = r := rd32_of_holds hold.left hlt
    rw [readThunks, hr, if_neg (by omega),
      ih k (off + 4) hold.right (fun r' hr' => hall r' (List.mem_cons_of_mem _ hr')) (by omega)]

theorem readDescs_eq {out : Buf} (ds : List Desc) : ∀ k off,
    (∀ j d, ds[j]? = some d → DescAt out (off + j * 20) d ∧ 0 < d.name ∧
      d.ilt < 2 ^ 32 ∧ d.name < 2 ^ 32 ∧ d.firstThunk < 2 ^ 32) →
    rd32 out (off + ds.length * 20 + 12) = 0 → ds.length < k → readDescs out k off = ds := by
  induction ds with
  | nil =>
    intro k off _ hzero hk
    obtain ⟨k, rfl⟩ : ∃ k', k = k' + 1 := ⟨k - 1, by omega⟩
    rw [List.length_nil, Nat.zero_mul, Nat.add_zero] at hzero
    rw [readDescs, if_pos hzero]
  | cons d ds ih =>
    intro k off hall hzero hk
    rw [List.length_cons] at hk hzero
    obtain ⟨k, rfl⟩ : ∃ k', k = k' + 1 := ⟨k - 1, by omega⟩
    obtain ⟨hdesc, hpos, hilt, hname, hft⟩ := hall 0 d rfl
    rw [Nat.zero_mul, Nat.add_zero] at hdesc
    have hn : rd32 out (off + 12) = d.name := rd32_of_holds hdesc.name hname
    rw [readDescs, hn, if_neg (by omega), rd32_of_holds hdesc.ilt hilt,
      rd32_of_holds hdesc.firstThunk hft, ih k (off + 20) ?_ ?_ (by omega)]
    · intro j d' hj
      have hnext := hall (j + 1) d' hj
      rwa [show off + (j + 1) * 20 = off + 20 + j * 20 by omega] at hnext
    · rwa [show off + 20 + ds.length * 20 + 12 = off + (ds.length + 1) * 20 + 12 by omega]

def cut (s : Buf) : Buf := s.takeWhile (· ≠ 0)

def boundBy (imageBase : ℕ) (g : Buf × List (ℕ × Buf)) : List IatEntry :=
  g.2.zipIdx.map fun e =>
    ⟨imageBase + ((g.2.headD (0, [])).1 - imageBase) % 2 ^ 32 + 4 * e.2, cut g.1, cut e.1.2⟩

theorem bind_names {out blob : Buf} {lo first : ℕ} {name : Buf}
    (hout : ∀ off bs, Holds blob off bs → Holds out (base + off) bs) {es : List (ℕ × Buf)}
    {rvas : List ℕ} (h : List.Forall₂ (NameAt base lo blob) es rvas) : ∀ n,
    (rvas.zipIdx n).map (fun e => (⟨first + 4 * e.2, name, cstr out (e.1 + 2)⟩ : IatEntry)) =
      (es.zipIdx n).map fun e => ⟨first + 4 * e.2, name, cut e.1.2⟩ := by
  induction h with
  | nil =>
    intro n
    rfl
  | @cons e r es rvas he _ ih =>
    intro n
    obtain ⟨off, hr, -, hold⟩ := he
    have hname : Holds out (base + off + 2) (e.2 ++ [0]) := by
      have h := hout off _ hold
      rw [List.append_assoc] at h
      exact h.right
    rw [List.zipIdx_cons, List.zipIdx_cons, List.map_cons, List.map_cons, ih (n + 1), hr,
      cstr_of_holds hname]
    rfl

theorem bindDesc_eq {out blob : Buf} {lo imageBase : ℕ} {g : Buf × List (ℕ × Buf)} {d : Desc}
    {rvas : List ℕ} (hpos : 0 < base)
    (hout : ∀ off bs, Holds blob off bs → Holds out (base + off) bs)
    (hlen : out.length = base + blob.length) (hsize : out.length < 2 ^ 31)
    (h : GroupAt base lo imageBase blob g d rvas) :
    bindDesc out imageBase d = boundBy imageBase g ∧
      (∀ r ∈ readThunks out out.length d.ilt, base ≤ r ∧ r < base + blob.length) := by
  have hrange : ∀ r ∈ rvas, base ≤ r ∧ r < base + blob.length := by
    intro r hr
    obtain ⟨n, hn, rfl⟩ := List.mem_iff_getElem.mp hr
    have hat := h.names.get (by rw [h.names.length_eq]; exact hn) hn
    obtain ⟨off, hoff, -, hold⟩ := hat
    have hle := hold.length_le (by simp)
    simp only [List.length_append, List.length_cons, List.length_nil] at hle
    simp only [List.get_eq_getElem] at hoff
    omega
  obtain ⟨io, hio, -, hilt⟩ := h.ilt
  have hroom := hilt.length_le (by simp [le32])
  rw [length_flatMap_le32, List.length_append, List.length_singleton] at hroom
  have hthunks : readThunks out out.length d.ilt = rvas := by
    rw [hio]
    exact readThunks_eq rvas _ _ (hout _ _ hilt)
      (fun r hr => by have := hrange r hr; omega) (by omega)
  obtain ⟨no, hno, -, hname⟩ := h.name
  rw [hthunks]
  refine ⟨?_, hrange⟩
  have hall : (rvas.zipIdx.filter fun e => e.1 < 2 ^ 31) = rvas.zipIdx := by
    rw [List.filter_eq_self]
    intro e he
    have hr := hrange e.1 (List.fst_mem_of_mem_zipIdx he)
    simp only [decide_eq_true_eq]
    omega
  rw [bindDesc, hthunks, hall, hno, cstr_of_holds (hout _ _ hname), h.firstThunk]
  exact bind_names hout h.names 0

def importRvas (out : Buf) : List ℕ :=
  let rva := rd32 out (optHeader out + 104)
  rva :: (readDescs out out.length rva).flatMap fun d =>
    d.ilt :: d.name :: readThunks out out.length d.ilt

theorem forall₂_flatMap {α β γ : Type} {as : List α} {bs : List β} {fa : α → List γ}
    {fb : β → List γ} (h : List.Forall₂ (fun a b => fb b = fa a) as bs) :
    bs.flatMap fb = as.flatMap fa := by
  induction h with
  | nil => rfl
  | cons hab _ ih => rw [List.flatMap_cons, List.flatMap_cons, hab, ih]

theorem loadImports_inject {f : Buf} {iat : List IatEntry} (hf : RawImage f) (hne : iat ≠ [])
    (hsize : (align4 f).length + (importBlob (align4 f).length (imageBase f) (groups iat)).length <
      2 ^ 31) :
    loadImports (injectImportDirectory f iat) =
        (groups iat).flatMap (boundBy (imageBase f)) ∧
      ∀ r ∈ importRvas (injectImportDirectory f iat), (align4 f).length ≤ r ∧
        r < (align4 f).length +
          (importBlob (align4 f).length (imageBase f) (groups iat)).length := by
  have hinst := installed_inject hf hne hsize
  obtain ⟨pad, hpad, -⟩ := align4_eq f
  have hpos : 0 < (align4 f).length := by
    have hlow := hf.low
    rw [hpad, List.length_append]
    omega
  generalize (align4 f).length = base at hinst hsize hpos ⊢
  obtain ⟨ds, -, hroom, hgroups, hdescs, hlast⟩ :=
    @importBlob_spec base (imageBase f) (groups iat)
  generalize importBlob base (imageBase f) (groups iat) = blob at *
  generalize injectImportDirectory f iat = out at hinst ⊢
  have hlen := hinst.length
  have hn := hgroups.length_eq
  have hbytes : descBytes (groups iat) = (groups iat).length * 20 + 20 := by
    rw [descBytes]
    omega
  have hdir : rd32 out (optHeader out + 104) = base := by
    rw [optHeader, hinst.lfanew]
    exact hinst.directory
  have hbound : List.Forall₂ (fun g (d : Desc) => bindDesc out (imageBase f) d = boundBy (imageBase f) g ∧
      base ≤ d.ilt ∧ d.ilt < base + blob.length ∧ base ≤ d.name ∧ d.name < base + blob.length ∧
      d.firstThunk < 2 ^ 32 ∧
      ∀ r ∈ readThunks out out.length d.ilt, base ≤ r ∧ r < base + blob.length)
      (groups iat) ds := by
    refine hgroups.imp fun g d h => ?_
    obtain ⟨rvas, h⟩ := h
    obtain ⟨hbind, hthunks⟩ := bindDesc_eq hpos hinst.holds hlen (by omega) h
    obtain ⟨io, hio, -, hilt⟩ := h.ilt
    obtain ⟨no, hno, -, hname⟩ := h.name
    have hio' := hilt.length_le (by simp [le32])
    have hno' := hname.length_le (by simp)
    rw [length_flatMap_le32, List.length_append, List.length_singleton] at hio'
    rw [List.length_append, List.length_singleton] at hno'
    refine ⟨hbind, by omega, by omega, by omega, by omega, ?_, hthunks⟩
    rw [h.firstThunk]
    exact Nat.mod_lt _ (by norm_num)
  have hfields : ∀ (j : ℕ) (d : Desc), ds[j]? = some d → base ≤ d.ilt ∧ d.ilt < base + blob.length ∧
      base ≤ d.name ∧ d.name < base + blob.length ∧ d.firstThunk < 2 ^ 32 ∧
      ∀ r ∈ readThunks out out.length d.ilt, base ≤ r ∧ r < base + blob.length := by
    intro j d hj
    obtain ⟨hj', rfl⟩ := List.getElem?_eq_some_iff.mp hj
    exact (hbound.get (by rw [hn]; exact hj') hj').2
  have hread : readDescs out out.length base = ds := by
    refine readDescs_eq ds _ _ (fun j d hj => ?_) ?_ (by omega)
    · obtain ⟨-, hilt, hname, hname', hft, -⟩ := hfields j d hj
      have hdesc := hdescs j d hj
      refine ⟨⟨hinst.holds _ _ hdesc.ilt, ?_, ?_⟩, by omega, by omega, by omega, hft⟩
      · exact hinst.holds _ _ hdesc.name
      · exact hinst.holds _ _ hdesc.firstThunk
    · have hzeros : Holds blob ((groups iat).length * 20)
          (List.replicate 12 0 ++ (le32 0 ++ List.replicate 4 0)) := hlast
      have hzero := hinst.holds _ _ hzeros.right.left
      rw [List.length_replicate, hn, ← Nat.add_assoc] at hzero
      exact rd32_of_holds hzero (by norm_num)
  constructor
  · rw [loadImports, hdir, hread, hinst.imageBase]
    exact forall₂_flatMap (hbound.imp fun g d h => h.1)
  · intro r hr
    rw [importRvas, hdir, hread, List.mem_cons, List.mem_flatMap] at hr
    rcases hr with rfl | ⟨d, hd, hr⟩
    · omega
    · obtain ⟨j, hj⟩ := List.mem_iff_getElem?.mp hd
      obtain ⟨h₁, h₂, h₃, h₄, -, h₅⟩ := hfields j d hj
      rw [List.mem_cons, List.mem_cons] at hr
      rcases hr with rfl | rfl | hr
      · exact ⟨h₁, h₂⟩
      · exact ⟨h₃, h₄⟩
      · exact h₅ r hr

/-! ### The groups -/

theorem lt_of_not {a b : Buf} (hne : a ≠ b) (hlt : ¬a < b) : b < a :=
  Std.lt_of_le_of_ne (List.not_lt.mp hlt) hne.symm

def entriesOf (gs : List (Buf × List (ℕ × Buf))) : List IatEntry :=
  gs.flatMap fun g => g.2.map fun x => ⟨x.1, g.1, x.2⟩

theorem entriesOf_cons (g : Buf × List (ℕ × Buf)) (gs : List (Buf × List (ℕ × Buf))) :
    entriesOf (g :: gs) = g.2.map (fun x => (⟨x.1, g.1, x.2⟩ : IatEntry)) ++ entriesOf gs := rfl

def groupsWeight (gs : List (Buf × List (ℕ × Buf))) : ℕ :=
  (gs.map fun g => 26 + g.1.length + (g.2.map fun e => e.2.length + 8).sum).sum

theorem groupsWeight_cons (g : Buf × List (ℕ × Buf)) (gs : List (Buf × List (ℕ × Buf))) :
    groupsWeight (g :: gs) =
      26 + g.1.length + (g.2.map fun e => e.2.length + 8).sum + groupsWeight gs := rfl

theorem pushGroup_spec (dll : Buf) (x : ℕ × Buf) (gs : List (Buf × List (ℕ × Buf)))
    (hsorted : gs.Pairwise fun a b => a.1 < b.1) (hne : ∀ g ∈ gs, g.2 ≠ []) :
    (pushGroup dll x gs).Pairwise (fun a b => a.1 < b.1) ∧
      (∀ g ∈ pushGroup dll x gs, g.2 ≠ [] ∧ (g.1 = dll ∨ ∃ g' ∈ gs, g.1 = g'.1)) ∧
      (entriesOf (pushGroup dll x gs)).Perm (⟨x.1, dll, x.2⟩ :: entriesOf gs) ∧
      groupsWeight (pushGroup dll x gs) ≤ groupsWeight gs + (34 + dll.length + x.2.length) := by
  induction gs with
  | nil =>
    refine ⟨List.pairwise_singleton _ _, fun g hg => ?_, .refl _, ?_⟩
    · obtain rfl := List.mem_singleton.mp hg
      exact ⟨List.cons_ne_nil _ _, .inl rfl⟩
    · simp only [pushGroup, groupsWeight, List.map_cons, List.map_nil, List.sum_cons,
        List.sum_nil]
      omega
  | cons g gs ih =>
    obtain ⟨k, xs⟩ := g
    obtain ⟨hhead, htail⟩ := List.pairwise_cons.mp hsorted
    have hkept : ∀ g ∈ (k, xs) :: gs, g.2 ≠ [] ∧ (g.1 = dll ∨ ∃ g' ∈ (k, xs) :: gs, g.1 = g'.1) :=
      fun g hg => ⟨hne g hg, .inr ⟨g, hg, rfl⟩⟩
    rw [pushGroup]
    split_ifs with heq hlt
    · -- the group of the DLL is there
      subst heq
      refine ⟨List.pairwise_cons.mpr ⟨hhead, htail⟩, fun g hg => ?_, ?_, ?_⟩
      · rcases List.mem_cons.mp hg with rfl | hg
        · exact ⟨by simp, .inl rfl⟩
        · exact hkept g (List.mem_cons_of_mem _ hg)
      · rw [entriesOf_cons, entriesOf_cons, List.map_append, List.append_assoc]
        exact List.perm_middle
      · rw [groupsWeight_cons, groupsWeight_cons]
        simp only [List.map_append, List.sum_append, List.map_cons, List.map_nil, List.sum_cons,
          List.sum_nil]
        omega
    · -- the group is put before a greater one
      refine ⟨List.pairwise_cons.mpr ⟨fun b hb => ?_, hsorted⟩, fun g hg => ?_, .refl _, ?_⟩
      · rcases List.mem_cons.mp hb with rfl | hb
        · exact hlt
        · exact List.lt_trans hlt (hhead b hb)
      · rcases List.mem_cons.mp hg with rfl | hg
        · exact ⟨List.cons_ne_nil _ _, .inl rfl⟩
        · exact hkept g hg
      · rw [groupsWeight_cons]
        simp only [List.map_cons, List.map_nil, List.sum_cons, List.sum_nil]
        omega
    · obtain ⟨hp, hkeys, hperm, hweight⟩ :=
        ih htail fun g' hg' => hne g' (List.mem_cons_of_mem _ hg')
      refine ⟨List.pairwise_cons.mpr ⟨fun b hb => ?_, hp⟩, fun g hg => ?_, ?_, ?_⟩
      · rcases (hkeys b hb).2 with hdll | ⟨g', hg', heq'⟩
        · rw [hdll]
          exact lt_of_not heq hlt
        · rw [heq']
          exact hhead g' hg'
      · rcases List.mem_cons.mp hg with rfl | hg
        · exact hkept _ List.mem_cons_self
        · obtain ⟨hg₁, hdll | ⟨g', hg', heq'⟩⟩ := hkeys g hg
          · exact ⟨hg₁, .inl hdll⟩
          · exact ⟨hg₁, .inr ⟨g', List.mem_cons_of_mem _ hg', heq'⟩⟩
      · rw [entriesOf_cons, entriesOf_cons]
        exact (hperm.append_left _).trans List.perm_middle
      · rw [groupsWeight_cons, groupsWeight_cons]
        omega

def entriesWeight (iat : List IatEntry) : ℕ :=
  (iat.map fun e => 34 + e.dll.length + e.func.length).sum

theorem foldl_pushGroup (iat : List IatEntry) : ∀ gs : List (Buf × List (ℕ × Buf)),
    gs.Pairwise (fun a b => a.1 < b.1) → (∀ g ∈ gs, g.2 ≠ []) →
    ∃ out, iat.foldl (fun gs e => pushGroup e.dll (e.slotVa, e.func) gs) gs = out ∧
      out.Pairwise (fun a b => a.1 < b.1) ∧ (∀ g ∈ out, g.2 ≠ []) ∧
      (entriesOf out).Perm (entriesOf gs ++ iat) ∧
      groupsWeight out ≤ groupsWeight gs + entriesWeight iat := by
  induction iat with
  | nil =>
    intro gs hsorted hne
    exact ⟨gs, rfl, hsorted, hne, by rw [List.append_nil], le_rfl⟩
  | cons e iat ih =>
    intro gs hsorted hne
    obtain ⟨hp, hkeys, hperm, hweight⟩ := pushGroup_spec e.dll (e.slotVa, e.func) gs hsorted hne
    obtain ⟨out, hfold, hp', hne', hperm', hweight'⟩ := ih _ hp fun g hg => (hkeys g hg).1
    refine ⟨out, hfold, hp', hne', hperm'.trans ?_, ?_⟩
    · exact (hperm.append_right iat).trans List.perm_middle.symm
    · have hsum : entriesWeight (e :: iat) =
          34 + e.dll.length + e.func.length + entriesWeight iat := rfl
      dsimp only at hweight
      omega

theorem dedup_of_sorted : ∀ l : List (ℕ × Buf), l.Pairwise (fun a b => a.1 < b.1) → dedup l = l
  | [], _ => rfl
  | [_], _ => rfl
  | x :: y :: xs, h => by
    obtain ⟨hhead, htail⟩ := List.pairwise_cons.mp h
    have hne : x ≠ y := fun heq => absurd (hhead y List.mem_cons_self) (by rw [heq]; omega)
    rw [dedup, if_neg hne, dedup_of_sorted (y :: xs) htail]

instance : Std.Total entryLe where
  total a b := by
    rcases Nat.lt_trichotomy a.1 b.1 with h | h | h
    · exact .inl (.inl h)
    · rcases List.le_total a.2 b.2 with h' | h'
      · exact .inl (.inr ⟨h, h'⟩)
      · exact .inr (.inr ⟨h.symm, h'⟩)
    · exact .inr (.inl h)

instance : IsTrans (ℕ × Buf) entryLe where
  trans a b c := by
    rintro (h | ⟨h, h'⟩) (g | ⟨g, g'⟩)
    · exact .inl (by omega)
    · exact .inl (by omega)
    · exact .inl (by omega)
    · exact .inr ⟨by omega, List.le_trans h' g'⟩

theorem sorted_of_nodup {xs : List (ℕ × Buf)} (h : (xs.map Prod.fst).Nodup) :
    (xs.insertionSort entryLe).Pairwise fun a b => a.1 < b.1 := by
  have hperm := List.perm_insertionSort entryLe xs
  have hnodup : ((xs.insertionSort entryLe).map Prod.fst).Nodup :=
    ((hperm.map Prod.fst).nodup_iff).mpr h
  have hsorted := List.pairwise_insertionSort entryLe xs
  rw [List.Nodup, List.pairwise_map] at hnodup
  refine (hsorted.and hnodup).imp fun ⟨hle, hne⟩ => ?_
  rcases hle with hlt | ⟨heq, -⟩
  · exact hlt
  · exact absurd heq hne

/-- The groups of imports with distinct slots. -/
structure Grouped (iat : List IatEntry) (gs : List (Buf × List (ℕ × Buf))) : Prop where
  keys : gs.Pairwise fun a b => a.1 < b.1
  nonempty : ∀ g ∈ gs, g.2 ≠ []
  sorted : ∀ g ∈ gs, g.2.Pairwise fun a b => a.1 < b.1
  entries : (entriesOf gs).Perm iat
  weight : groupsWeight gs ≤ entriesWeight iat

theorem grouped_groups {iat : List IatEntry} (h : (iat.map IatEntry.slotVa).Nodup) :
    Grouped iat (groups iat) := by
  obtain ⟨gs, hfold, hkeys, hne, hperm, hweight⟩ :=
    foldl_pushGroup iat [] List.Pairwise.nil (by simp)
  -- the slots of one group are among those of the imports
  have hslots : ∀ g ∈ gs, (g.2.map Prod.fst).Nodup := by
    intro g hg
    have hall : ((entriesOf gs).map IatEntry.slotVa).Nodup := (hperm.map _).nodup_iff.mpr h
    have hsub : (g.2.map fun x => (⟨x.1, g.1, x.2⟩ : IatEntry)).Sublist (entriesOf gs) :=
      List.sublist_flatten_of_mem (List.mem_map_of_mem hg)
    have hnodup := hall.sublist (hsub.map IatEntry.slotVa)
    rwa [List.map_map] at hnodup
  have hgroups : groups iat = gs.map fun g => (g.1, g.2.insertionSort entryLe) := by
    rw [groups, hfold]
    refine List.map_congr_left fun g hg => ?_
    rw [dedup_of_sorted _ (sorted_of_nodup (hslots g hg))]
  rw [hgroups]
  refine ⟨List.pairwise_map.mpr hkeys, ?_, ?_, ?_, ?_⟩
  · simp only [List.forall_mem_map]
    intro g hg hnil
    have hlen := List.length_insertionSort entryLe g.2
    rw [hnil] at hlen
    exact hne g hg (List.length_eq_zero_iff.mp hlen.symm)
  · simp only [List.forall_mem_map]
    exact fun g hg => sorted_of_nodup (hslots g hg)
  · refine List.Perm.trans ?_ hperm
    rw [entriesOf, List.flatMap_map]
    exact List.Perm.flatMap_left gs fun g _ => (List.perm_insertionSort entryLe g.2).map _
  · refine le_trans (le_of_eq ?_) (hweight.trans_eq (Nat.zero_add _))
    rw [groupsWeight, groupsWeight, List.map_map]
    refine congrArg List.sum (List.map_congr_left fun g _ => ?_)
    exact congrArg (26 + g.1.length + ·)
      ((List.perm_insertionSort entryLe g.2).map fun e => e.2.length + 8).sum_eq

theorem namesSize_add (es : List (ℕ × Buf)) :
    namesSize es + 4 * es.length = (es.map fun e => e.2.length + 8).sum := by
  induction es with
  | nil => rfl
  | cons e es ih =>
    have hsum : namesSize (e :: es) = e.2.length + 4 + namesSize es := rfl
    rw [List.map_cons, List.sum_cons, ← ih, hsum, List.length_cons]
    omega

theorem descBytes_add (gs : List (Buf × List (ℕ × Buf))) :
    descBytes gs + (gs.map groupSize).sum = 20 + groupsWeight gs := by
  induction gs with
  | nil => rfl
  | cons g gs ih =>
    have hnames := namesSize_add g.2
    have hbytes : descBytes (g :: gs) = descBytes gs + 20 := Nat.succ_mul _ _
    rw [groupsWeight_cons, List.map_cons, List.sum_cons, groupSize, hbytes, ← hnames]
    omega

namespace Grouped

variable {iat : List IatEntry} {gs : List (Buf × List (ℕ × Buf))} {g : Buf × List (ℕ × Buf)}

theorem mem_of_mem (h : Grouped iat gs) (hg : g ∈ gs) {x : ℕ × Buf} (hx : x ∈ g.2) :
    (⟨x.1, g.1, x.2⟩ : IatEntry) ∈ iat :=
  h.entries.mem_iff.mp (List.mem_flatMap.mpr ⟨g, hg, List.mem_map_of_mem hx⟩)

theorem mem_group (h : Grouped iat gs) (hg : g ∈ gs) {e : IatEntry} (he : e ∈ iat)
    (hdll : e.dll = g.1) : (e.slotVa, e.func) ∈ g.2 := by
  obtain ⟨g', hg', hmem⟩ := List.mem_flatMap.mp (h.entries.mem_iff.mpr he)
  obtain ⟨x, hx, rfl⟩ := List.mem_map.mp hmem
  have hkeys : (gs.map Prod.fst).Nodup :=
    List.pairwise_map.mpr (h.keys.imp fun hlt => Std.ne_of_lt hlt)
  obtain rfl : g' = g := List.inj_on_of_nodup_map hkeys hg' hg hdll
  exact hx

theorem head_le (h : Grouped iat gs) (hg : g ∈ gs) {x : ℕ × Buf} (hx : x ∈ g.2) :
    (g.2.headD (0, [])).1 ≤ x.1 := by
  have hsorted := h.sorted g hg
  revert hsorted hx
  cases g.2 with
  | nil => exact fun hx => absurd hx (List.not_mem_nil)
  | cons y ys =>
    intro hx hsorted
    rcases List.mem_cons.mp hx with rfl | hx
    · exact le_rfl
    · exact (List.rel_of_pairwise_cons hsorted hx).le

theorem head_mem (h : Grouped iat gs) (hg : g ∈ gs) : g.2.headD (0, []) ∈ g.2 := by
  have hne := h.nonempty g hg
  revert hne
  cases g.2 with
  | nil => exact fun hne => absurd rfl hne
  | cons y ys => exact fun _ => List.mem_cons_self

end Grouped

/-! ### The bindings -/

def Contiguous (iat : List IatEntry) : Prop :=
  ∀ e ∈ iat, (∀ e' ∈ iat, e'.dll = e.dll → e.slotVa ≤ e'.slotVa) ∨
    ∃ e' ∈ iat, e'.dll = e.dll ∧ e'.slotVa + 4 = e.slotVa

def NulFree (iat : List IatEntry) : Prop :=
  ∀ e ∈ iat, (0 : UInt8) ∉ e.dll ∧ (0 : UInt8) ∉ e.func

instance (iat : List IatEntry) : Decidable (Contiguous iat) :=
  inferInstanceAs (Decidable (∀ e ∈ iat, _ ∨ ∃ e' ∈ iat, _))

instance (iat : List IatEntry) : Decidable (NulFree iat) :=
  inferInstanceAs (Decidable (∀ e ∈ iat, _))

theorem cut_eq {bs : Buf} (h : (0 : UInt8) ∉ bs) : cut bs = bs := by
  rw [cut, List.takeWhile_eq_self_iff]
  intro b hb
  rw [decide_eq_true_eq]
  rintro rfl
  exact h hb

theorem zero_not_mem_cut (bs : Buf) : (0 : UInt8) ∉ cut bs := by
  intro h
  exact absurd (List.mem_takeWhile_imp h) (by simp)

theorem zipIdx_of_contiguous {first : ℕ} (es : List (ℕ × Buf)) : ∀ n,
    es.Pairwise (fun a b => a.1 < b.1) →
    (∀ x ∈ es, x.1 = first + 4 * n ∨ ∃ y ∈ es, y.1 + 4 = x.1) →
    ∀ x k, (x, k) ∈ es.zipIdx n → first + 4 * k = x.1 := by
  induction es with
  | nil =>
    intro n _ _ x k h
    exact absurd h List.not_mem_nil
  | cons x es ih =>
    intro n hsorted hstep y k hmem
    obtain ⟨hhead, htail⟩ := List.pairwise_cons.mp hsorted
    have hx : x.1 = first + 4 * n := by
      rcases hstep x List.mem_cons_self with hx | ⟨y, hy, heq⟩
      · exact hx
      · rcases List.mem_cons.mp hy with rfl | hy
        · omega
        · have := hhead y hy
          omega
    rw [List.zipIdx_cons] at hmem
    rcases List.mem_cons.mp hmem with heq | hmem
    · obtain ⟨rfl, rfl⟩ := Prod.mk.inj heq
      exact hx.symm
    · refine ih (n + 1) htail (fun z hz => ?_) y k hmem
      have hlt := hhead z hz
      rcases hstep z (List.mem_cons_of_mem _ hz) with heq | ⟨w, hw, heq⟩
      · omega
      · rcases List.mem_cons.mp hw with rfl | hw
        · exact .inl (by omega)
        · exact .inr ⟨w, hw, heq⟩

section

variable {f : Buf} {iat : List IatEntry} {gs : List (Buf × List (ℕ × Buf))}

theorem Grouped.mem_boundBy (h : Grouped iat gs) (hgap : Contiguous iat) (hnul : NulFree iat)
    {base : ℕ} (hbase : ∀ e ∈ iat, base ≤ e.slotVa ∧ e.slotVa < base + 2 ^ 32) (e : IatEntry) :
    e ∈ gs.flatMap (boundBy base) ↔ e ∈ iat := by
  -- the number of an import in its group is that of its slot
  have hslot : ∀ g ∈ gs, ∀ x k, (x, k) ∈ g.2.zipIdx →
      (⟨base + ((g.2.headD (0, [])).1 - base) % 2 ^ 32 + 4 * k, cut g.1, cut x.2⟩ : IatEntry) =
        ⟨x.1, g.1, x.2⟩ := by
    intro g hg x k hx
    have hfirst := hbase _ (h.mem_of_mem hg (h.head_mem hg))
    have hk := @zipIdx_of_contiguous (g.2.headD (0, [])).1 g.2 0 (h.sorted g hg) ?_ x k hx
    · obtain ⟨hdll, hfunc⟩ := hnul _ (h.mem_of_mem hg (List.fst_mem_of_mem_zipIdx hx))
      dsimp only at hfirst hdll hfunc
      rw [cut_eq hdll, cut_eq hfunc, Nat.mod_eq_of_lt (by omega), Nat.add_sub_of_le hfirst.1, hk]
    · intro y hy
      rcases hgap _ (h.mem_of_mem hg hy) with hmin | ⟨e', he', hdll, hstep⟩
      · have hle := hmin _ (h.mem_of_mem hg (h.head_mem hg)) rfl
        have hge := h.head_le hg hy
        dsimp only at hle
        exact .inl (by omega)
      · exact .inr ⟨_, h.mem_group hg he' hdll, hstep⟩
  rw [← h.entries.mem_iff, entriesOf, List.mem_flatMap, List.mem_flatMap]
  constructor
  · rintro ⟨g, hg, he⟩
    obtain ⟨⟨x, k⟩, hx, rfl⟩ := List.mem_map.mp he
    exact ⟨g, hg, List.mem_map.mpr ⟨x, List.fst_mem_of_mem_zipIdx hx, (hslot g hg x k hx).symm⟩⟩
  · rintro ⟨g, hg, he⟩
    obtain ⟨x, hx, rfl⟩ := List.mem_map.mp he
    obtain ⟨k, hk⟩ := List.mem_iff_getElem?.mp hx
    have hzip : (x, k) ∈ g.2.zipIdx := List.mk_mem_zipIdx_iff_getElem?.mpr hk
    exact ⟨g, hg, List.mem_map.mpr ⟨(x, k), hzip, hslot g hg x k hzip⟩⟩

theorem Grouped.of_mem_boundBy (h : Grouped iat gs) {base : ℕ}
    (hbase : ∀ e ∈ iat, base ≤ e.slotVa ∧ e.slotVa < base + 2 ^ 32)
    (hbound : ∀ e, e ∈ gs.flatMap (boundBy base) ↔ e ∈ iat) : Contiguous iat ∧ NulFree iat := by
  have hnul : NulFree iat := by
    intro e he
    obtain ⟨g, -, hmem⟩ := List.mem_flatMap.mp ((hbound e).mpr he)
    obtain ⟨x, -, rfl⟩ := List.mem_map.mp hmem
    exact ⟨zero_not_mem_cut _, zero_not_mem_cut _⟩
  refine ⟨fun e he => ?_, hnul⟩
  obtain ⟨g, hg, hmem⟩ := List.mem_flatMap.mp ((hbound e).mpr he)
  have hfirst := hbase _ (h.mem_of_mem hg (h.head_mem hg))
  have hdll := cut_eq (hnul _ (h.mem_of_mem hg (h.head_mem hg))).1
  obtain ⟨⟨x, k⟩, hx, rfl⟩ := List.mem_map.mp hmem
  dsimp only at hfirst hdll ⊢
  rw [hdll, Nat.mod_eq_of_lt (by omega), Nat.add_sub_of_le hfirst.1]
  cases k with
  | zero =>
    -- the lowest slot
    refine .inl fun e' he' heq => ?_
    exact h.head_le hg (h.mem_group hg he' heq)
  | succ k =>
    -- the one before it is bound as well, hence recovered
    have hk := List.mk_mem_zipIdx_iff_getElem?.mp hx
    obtain ⟨y, hy⟩ : ∃ y, g.2[k]? = some y := by
      have hlt := (List.getElem?_eq_some_iff.mp hk).1
      exact ⟨_, List.getElem?_eq_getElem (by omega)⟩
    have hprev := (hbound _).mp (List.mem_flatMap.mpr ⟨g, hg, List.mem_map_of_mem
      (List.mk_mem_zipIdx_iff_getElem?.mpr hy)⟩)
    refine .inr ⟨_, hprev, hdll, ?_⟩
    dsimp only
    rw [Nat.mod_eq_of_lt (by omega)]
    omega

/-- In a raw image whose imports have distinct slots, a loader binds each slot to its own function
and nothing else if and only if no DLL has a gap between its slots and no name a NUL; what it reads
lies in the last section. -/
theorem inject_binds_iff (hf : RawImage f) (hne : iat ≠ [])
    (hslots : (iat.map IatEntry.slotVa).Nodup)
    (hrange : ∀ e ∈ iat, imageBase f ≤ e.slotVa ∧ e.slotVa < imageBase f + 2 ^ 32)
    (hsize : f.length + entriesWeight iat + 23 < 2 ^ 31) :
    let out := injectImportDirectory f iat
    ((∀ e, e ∈ loadImports out ↔ e ∈ iat) ↔ Contiguous iat ∧ NulFree iat) ∧
      ∃ i, i < numSections f ∧
        (∀ j, j < numSections f →
          rd32 f (sectionTable f + j * 40 + 12) ≤ rd32 f (sectionTable f + i * 40 + 12)) ∧
        rd32 out (sectionTable f + i * 40 + 12) = rd32 f (sectionTable f + i * 40 + 12) ∧
        rd32 out (sectionTable f + i * 40 + 20) = rd32 f (sectionTable f + i * 40 + 12) ∧
        ∀ r ∈ importRvas out, rd32 f (sectionTable f + i * 40 + 12) ≤ r ∧
          r < rd32 f (sectionTable f + i * 40 + 12) + rd32 out (sectionTable f + i * 40 + 8) := by
  intro out
  have hgroups := grouped_groups hslots
  have hroom : (align4 f).length +
      (importBlob (align4 f).length (imageBase f) (groups iat)).length < 2 ^ 31 := by
    obtain ⟨pad, hpad, hlen⟩ := align4_eq f
    obtain ⟨-, hblob, -⟩ := @importBlob_spec (align4 f).length (imageBase f) (groups iat)
    have hbytes := descBytes_add (groups iat)
    have hweight := hgroups.weight
    have halign : (align4 f).length ≤ f.length + 3 := by
      rw [hpad, List.length_append]
      omega
    omega
  obtain ⟨hload, hrvas⟩ := loadImports_inject hf hne hroom
  constructor
  · rw [hload]
    constructor
    · exact fun hbound => hgroups.of_mem_boundBy hrange hbound
    · rintro ⟨hgap, hnul⟩
      exact hgroups.mem_boundBy hgap hnul hrange
  · obtain ⟨i, hi, hmax, hva, hraw, hlow, hend⟩ := (installed_inject hf hne hroom).covers
    refine ⟨i, hi, hmax, hva, hraw, fun r hr => ?_⟩
    have hr' := hrvas r hr
    rw [hva] at hend
    exact ⟨hlow.trans hr'.1, hr'.2.trans_eq hend.symm⟩

end

def tinyImage : Buf :=
  let f := List.replicate 372 0
  let f := put f 0x3c (le32 64)
  let f := put f 64 [0x50, 0x45, 0, 0, 0x4c, 0x01, 1, 0]
  let f := put f 84 [224, 0]
  let f := put f (88 + 28) (le32 0x400000)
  let f := put f (88 + 224 + 12) (le32 352)
  put f (88 + 224 + 20) (le32 352)

theorem rawImage_tiny : RawImage tinyImage where
  accepted := by decide +kernel
  low := by decide +kernel
  directories := by decide +kernel
  sections := by decide +kernel
  table := by decide +kernel
  raw := by decide +kernel

/-- Two slots that follow each other are bound to their functions. -/
theorem inject_binds_two :
    let iat := [⟨0x400164, [65], [70]⟩, ⟨0x400160, [65], [71]⟩]
    ∀ e, e ∈ loadImports (injectImportDirectory tinyImage iat) ↔ e ∈ iat :=
  (inject_binds_iff rawImage_tiny (by decide) (by decide) (by decide +kernel)
    (by decide +kernel)).1.mpr ⟨by decide, by decide⟩

/-- A slot after a gap is not bound: the second name goes to the slot after
the first. -/
theorem not_inject_binds : ¬∀ (f : Buf) (iat : List IatEntry), RawImage f → iat ≠ [] →
    (iat.map IatEntry.slotVa).Nodup →
    (∀ e ∈ iat, imageBase f ≤ e.slotVa ∧ e.slotVa < imageBase f + 2 ^ 32) →
    f.length + entriesWeight iat + 23 < 2 ^ 31 →
    ∀ e, e ∈ loadImports (injectImportDirectory f iat) ↔ e ∈ iat := by
  intro h
  have hbinds := h tinyImage [⟨0x400160, [65], [70]⟩, ⟨0x400168, [65], [71]⟩] rawImage_tiny
    (by decide) (by decide) (by decide +kernel) (by decide +kernel) ⟨0x400168, [65], [71]⟩
  exact absurd (hbinds.mpr (by decide)) (by decide +kernel)

end Aret.Unpack
