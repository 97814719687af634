/-
The import directory of a rebuilt PE image.

The image is laid out so that the offset of a byte in the file is its RVA; the
directory is appended at its end.
-/
import Aret.ByteBuf
import Mathlib.Data.List.Sort

namespace Aret.Unpack

open ByteBuf

/-- An `IatEntry`. -/
structure IatEntry where
  slotVa : ℕ
  dll : Buf
  func : Buf
  deriving DecidableEq

/-! ### Grouping -/

def pushGroup (dll : Buf) (x : ℕ × Buf) : List (Buf × List (ℕ × Buf)) → List (Buf × List (ℕ × Buf))
  | [] => [(dll, [x])]
  | (k, xs) :: rest =>
    if dll = k then (k, xs ++ [x]) :: rest
    else if dll < k then (dll, [x]) :: (k, xs) :: rest
    else (k, xs) :: pushGroup dll x rest

def entryLe (a b : ℕ × Buf) : Prop := a.1 < b.1 ∨ a.1 = b.1 ∧ a.2 ≤ b.2

instance : DecidableRel entryLe := fun a b =>
  inferInstanceAs (Decidable (a.1 < b.1 ∨ a.1 = b.1 ∧ a.2 ≤ b.2))

def dedup : List (ℕ × Buf) → List (ℕ × Buf)
  | [] => []
  | [x] => [x]
  | x :: y :: xs => if x = y then dedup (y :: xs) else x :: dedup (y :: xs)

def groups (iat : List IatEntry) : List (Buf × List (ℕ × Buf)) :=
  (iat.foldl (fun gs e => pushGroup e.dll (e.slotVa, e.func) gs) []).map fun g =>
    (g.1, dedup (g.2.insertionSort entryLe))

/-! ### The blob -/

def closeText (blob : Buf) : Buf :=
  let blob := blob ++ [0]
  if blob.length % 2 ≠ 0 then blob ++ [0] else blob

/-- One `IMAGE_IMPORT_BY_NAME`, with what the lookup table gets for it. -/
def addName (base : ℕ) (s : Buf × List ℕ) (func : Buf) : Buf × List ℕ :=
  (closeText (s.1 ++ [0, 0] ++ func), s.2 ++ [base + s.1.length])

/-- The lookup table and the three fields of a descriptor. -/
structure Desc where
  ilt : ℕ
  name : ℕ
  firstThunk : ℕ

def addGroup (base imageBase : ℕ) (s : Buf × List Desc) (g : Buf × List (ℕ × Buf)) :
    Buf × List Desc :=
  let (blob, ilt) := g.2.foldl (fun s e => addName base s e.2) (s.1, [])
  let iltRva := base + blob.length
  let blob := blob ++ (ilt ++ [0]).flatMap le32
  let nameRva := base + blob.length
  let firstThunk := ((g.2.headD (0, [])).1 - imageBase) % 2 ^ 32
  (closeText (blob ++ g.1), s.2 ++ [⟨iltRva, nameRva, firstThunk⟩])

def putDesc (blob : Buf) (i : ℕ) (d : Desc) : Buf :=
  put (put (put blob (i * 20) (le32 d.ilt)) (i * 20 + 12) (le32 d.name)) (i * 20 + 16)
    (le32 d.firstThunk)

def putDescs : Buf → ℕ → List Desc → Buf
  | blob, _, [] => blob
  | blob, i, d :: ds => putDescs (putDesc blob i d) (i + 1) ds

def descBytes (gs : List (Buf × List (ℕ × Buf))) : ℕ := (gs.length + 1) * 20

/-- The bytes that are appended at `base`. -/
def importBlob (base imageBase : ℕ) (gs : List (Buf × List (ℕ × Buf))) : Buf :=
  let s := gs.foldl (addGroup base imageBase) (List.replicate (descBytes gs) 0, [])
  putDescs s.1 0 s.2

/-! ### The headers -/

def lfanew (f : Buf) : ℕ := rd32 f 0x3c

def optHeader (f : Buf) : ℕ := lfanew f + 24

def numSections (f : Buf) : ℕ := rd16 f (lfanew f + 6)

def sectionTable (f : Buf) : ℕ := optHeader f + rd16 f (lfanew f + 20)

def imageBase (f : Buf) : ℕ := rd32 f (optHeader f + 28)

def Accepted (f : Buf) : Prop :=
  lfanew f + 0x78 < f.length ∧ (f.drop (lfanew f)).take 4 = [0x50, 0x45, 0, 0]

instance (f : Buf) : Decidable (Accepted f) :=
  inferInstanceAs (Decidable (_ ∧ _))

/-- The section header with the highest address, the last of those that have it; the scan starts
from 0. -/
def bestSection (f : Buf) (st : ℕ) : ℕ → ℕ × ℕ
  | 0 => (0, 0)
  | n + 1 =>
    let (best, va) := bestSection f st n
    if va ≤ rd32 f (st + n * 40 + 12) then (st + n * 40, rd32 f (st + n * 40 + 12)) else (best, va)

def align4 (f : Buf) : Buf := f ++ List.replicate ((4 - f.length % 4) % 4) 0

/-- The data directory, and the number of directories where it leaves out the second. -/
def patchDirectory (f : Buf) (o rva size : ℕ) : Buf :=
  let f := put f (o + 104) (le32 rva)
  let f := put f (o + 108) (le32 size)
  if rd32 f (o + 92) < 2 then put f (o + 92) (le32 2) else f

/-- The section that is extended to `stop`, and the size of the image. -/
def patchSection (f : Buf) (o st n stop : ℕ) : Buf :=
  let (best, va) := bestSection f st n
  let cover := stop - va
  let f := put f (best + 8) (le32 cover)
  let f := put f (best + 16) (le32 cover)
  let f := put f (best + 36) (le32 0xE0000060)
  let align := max (rd32 f (o + 32)) 1
  let img := (va + cover + align - 1) &&& ((2 ^ 32 - 1) ^^^ (align - 1))
  if rd32 f (o + 56) < img then put f (o + 56) (le32 img) else f

def injectImportDirectory (f : Buf) (iat : List IatEntry) : Buf :=
  if iat = [] then f
  else if ¬Accepted f then f
  else
    let o := optHeader f
    let gs := groups iat
    let base := (align4 f).length
    let blob := importBlob base (imageBase f) gs
    let out := patchDirectory (align4 f ++ blob) o base (descBytes gs)
    patchSection out o (sectionTable f) (numSections f) (base + blob.length)

/-! ### The loader -/

def readThunks (f : Buf) : ℕ → ℕ → List ℕ
  | 0, _ => []
  | k + 1, rva => if rd32 f rva = 0 then [] else rd32 f rva :: readThunks f k (rva + 4)

def readDescs (f : Buf) : ℕ → ℕ → List Desc
  | 0, _ => []
  | k + 1, rva =>
    if rd32 f (rva + 12) = 0 then []
    else ⟨rd32 f rva, rd32 f (rva + 12), rd32 f (rva + 16)⟩ :: readDescs f k (rva + 20)

/-- What one descriptor binds: the `k`-th name of its lookup table to the `k`-th slot from its first
thunk on. An entry with the high bit set is an ordinal and has no name. -/
def bindDesc (f : Buf) (imageBase : ℕ) (d : Desc) : List IatEntry :=
  ((readThunks f f.length d.ilt).zipIdx.filter fun e => e.1 < 2 ^ 31).map fun e =>
    ⟨imageBase + d.firstThunk + 4 * e.2, cstr f d.name, cstr f (e.1 + 2)⟩

def loadImports (f : Buf) : List IatEntry :=
  (readDescs f f.length (rd32 f (optHeader f + 104))).flatMap (bindDesc f (imageBase f))

end Aret.Unpack
