/-
The text of lifted statements.

The text pipeline works on the lines that the lifter prints, one statement each,
and looks for registers by the words of a line.

Design notes: lifted text is ASCII, so that a text is a list of characters, and a
position in it counts characters.
-/
import Mathlib.Tactic
import Mathlib.Data.Fintype.Basic

namespace Aret
namespace Dataflow

abbrev Text := List Char

/-! ### Texts -/

/-- `str::trim`, of ASCII text. -/
def isSpace (c : Char) : Bool := c.isWhitespace || c == '\x0b' || c == '\x0c'

def trimStart (s : Text) : Text := s.dropWhile isSpace

def trimEnd (s : Text) : Text := (s.reverse.dropWhile isSpace).reverse

def trim (s : Text) : Text := trimEnd (trimStart s)

def find (pat : Text) : Text → Option ℕ
  | [] => if pat.isEmpty then some 0 else none
  | c :: cs => if pat.isPrefixOf (c :: cs) then some 0 else (find pat cs).map (· + 1)

def stripSuffix (suffix s : Text) : Option Text :=
  if suffix.isSuffixOf s then some (s.take (s.length - suffix.length)) else none

def isWordByte (c : Char) : Bool := c.isAlphanum || c == '_'

/-- The maximal words of a text, after the word `cur` that is being read (its end first). -/
def wordsFrom : Text → Text → List Text
  | cur, [] => if cur.isEmpty then [] else [cur.reverse]
  | cur, c :: cs =>
    if isWordByte c then wordsFrom (c :: cur) cs
    else (if cur.isEmpty then [] else [cur.reverse]) ++ wordsFrom [] cs

/-- `identifiers`: words that do not start with a digit. -/
def identifiers (s : Text) : List Text :=
  (wordsFrom [] s).filter fun w => !(w.head?.any Char.isDigit)

/-- Whether `name` stands at the start of `s` as a whole word, after the character `prev`. -/
def wordAt (name : Text) (prev : Option Char) (s : Text) : Bool :=
  name.isPrefixOf s && !(prev.any isWordByte) && !((s.drop name.length).head?.any isWordByte)

/-- `replace_word`, after the character `prev`; `skip` counts what is left of a word that has
been replaced. -/
def replaceFrom (name repl : Text) : Option Char → ℕ → Text → Text
  | _, _, [] => []
  | _, skip + 1, c :: cs => replaceFrom name repl (some c) skip cs
  | prev, 0, c :: cs =>
    if wordAt name prev (c :: cs) then
      repl ++ replaceFrom name repl (some c) (name.length - 1) cs
    else c :: replaceFrom name repl (some c) 0 cs

def replaceWord (s name repl : Text) : Text := replaceFrom name repl none 0 s

def countFrom (name : Text) : Option Char → ℕ → Text → ℕ
  | _, _, [] => 0
  | _, skip + 1, c :: cs => countFrom name (some c) skip cs
  | prev, 0, c :: cs =>
    if wordAt name prev (c :: cs) then countFrom name (some c) (name.length - 1) cs + 1
    else countFrom name (some c) 0 cs

def countWord (s name : Text) : ℕ := countFrom name none 0 s

/-! ### Registers -/

/-- Registers that share bits, by the widest of them. -/
inductive RegFamily where
  | rax | rbx | rcx | rdx | rsi | rdi | rbp | rsp
  | r8 | r9 | r10 | r11 | r12 | r13 | r14 | r15
  | xmm (i : Fin 16)
  deriving DecidableEq, Fintype, Repr

def gprNames : List (RegFamily × List String) := [
  (.rax, ["al", "ah", "ax", "eax", "rax"]), (.rbx, ["bl", "bh", "bx", "ebx", "rbx"]),
  (.rcx, ["cl", "ch", "cx", "ecx", "rcx"]), (.rdx, ["dl", "dh", "dx", "edx", "rdx"]),
  (.rsi, ["sil", "si", "esi", "rsi"]), (.rdi, ["dil", "di", "edi", "rdi"]),
  (.rbp, ["bpl", "bp", "ebp", "rbp"]), (.rsp, ["spl", "sp", "esp", "rsp"]),
  (.r8, ["r8b", "r8w", "r8d", "r8"]), (.r9, ["r9b", "r9w", "r9d", "r9"]),
  (.r10, ["r10b", "r10w", "r10d", "r10"]), (.r11, ["r11b", "r11w", "r11d", "r11"]),
  (.r12, ["r12b", "r12w", "r12d", "r12"]), (.r13, ["r13b", "r13w", "r13d", "r13"]),
  (.r14, ["r14b", "r14w", "r14d", "r14"]), (.r15, ["r15b", "r15w", "r15d", "r15"])]

/-- `XMM`. -/
def xmmNames : List String :=
  ["xmm0", "xmm1", "xmm2", "xmm3", "xmm4", "xmm5", "xmm6", "xmm7", "xmm8", "xmm9", "xmm10",
    "xmm11", "xmm12", "xmm13", "xmm14", "xmm15"]

def regFamily (tok : Text) : Option RegFamily :=
  match gprNames.find? fun row => row.2.any (·.toList == tok) with
  | some row => some row.1
  | none => (xmmNames.findFinIdx? fun x => x.toList == tok).map .xmm

def addFamily (out : List RegFamily) (w : Text) : List RegFamily :=
  match regFamily w with
  | some f => if f ∈ out then out else out ++ [f]
  | none => out

/-- `read_families`: the families a text names. -/
def readFamilies (s : Text) : List RegFamily := (identifiers s).foldl addFamily []

def callKills : List RegFamily := [.rax]

def argRegs : List RegFamily := [.rdi, .rsi, .rdx, .rcx, .r8, .r9]

def callClobber : List RegFamily := [.rax, .rcx, .rdx, .rsi, .rdi, .r8, .r9, .r10, .r11]

def allFamilies : Finset RegFamily := Finset.univ

/-! ### Statements -/

inductive Kind where
  /-- `reg = rhs;`. -/
  | assign
  /-- `reg OP= rhs;`, `reg++;`. -/
  | compound
  /-- Stores, calls, pushes, comments. -/
  | keep
  /-- `__asm__`: `Opaque`. -/
  | opaqueAsm
  deriving DecidableEq, Repr

/-- A line, and what the passes know of it. -/
structure Stmt where
  text : Text
  kind : Kind
  /-- The register written, and its family. -/
  write : Option (Text × RegFamily)
  reads : List RegFamily
  rhs : Option Text
  rhsLoadsMem : Bool
  isCall : Bool
  /-- The block that the line comes from. -/
  origin : ℕ
  deriving DecidableEq, Repr

def Stmt.kept (text : Text) (reads : List RegFamily) (isCall : Bool) (kind : Kind) : Stmt :=
  ⟨text, kind, none, reads, none, false, isCall, 0⟩

/-- `is_call_expr`: a character of a word stands before the first parenthesis. -/
def isCallExpr (s : Text) : Bool :=
  match find ['('] (trim s) with
  | none | some 0 => false
  | some (pos + 1) => (trim s)[pos]?.any isWordByte

def isImmediate (s : Text) : Bool :=
  match trim s with
  | '0' :: 'x' :: h => !h.isEmpty &&
    h.all fun c => c.isDigit || ('a' ≤ c && c ≤ 'f') || ('A' ≤ c && c ≤ 'F')
  | t => !t.isEmpty && t.all Char.isDigit

def needsParens (rhs : Text) : Bool :=
  let t := trim rhs
  if "*(".toList.isPrefixOf t && [')'].isSuffixOf t then false else !t.all isWordByte

/-- `reg++;` and `reg--;`. -/
def parseIncDec? (text body : Text) : Option Stmt :=
  match stripSuffix "++".toList body <|> stripSuffix "--".toList body with
  | none => none
  | some name =>
    (regFamily (trim name)).map fun fam =>
      ⟨text, .compound, some (trim name, fam), [fam], none, false, false, 0⟩

def compoundOps : List String := ["+=", "-=", "*=", "&=", "|=", "^=", "<<=", ">>="]

/-- `lhs OP= rhs;`, at the first place of the first operator that occurs. -/
def parseCompound? (text body : Text) : Option Stmt :=
  compoundOps.findSome? fun op =>
    (find op.toList body).map fun pos =>
      let lhs := trim (body.take pos)
      let rhs := trim (body.drop (pos + op.toList.length))
      match regFamily lhs with
      | some fam =>
        ⟨text, .compound, some (lhs, fam), fam :: (readFamilies rhs).filter (· != fam), none,
          false, false, 0⟩
      | none => Stmt.kept text (readFamilies body) false .keep

/-- `lhs = rhs;`. -/
def parseAssign? (text body : Text) : Option Stmt :=
  (find " = ".toList body).map fun pos =>
    let lhs := trim (body.take pos)
    let rhs := trim (body.drop (pos + 3))
    match regFamily lhs with
    | some fam =>
      if (find "pop(".toList rhs).isSome || isCallExpr rhs then
        ⟨text, .keep, some (lhs, fam), readFamilies rhs, none, false, false, 0⟩
      else
        ⟨text, .assign, some (lhs, fam), readFamilies rhs, some rhs,
          (find "*(".toList rhs).isSome, false, 0⟩
    | none => Stmt.kept text (readFamilies body) false .keep

def parseOther (text body : Text) : Stmt :=
  if isCallExpr body then
    let reads := readFamilies body
    Stmt.kept text (reads ++ argRegs.filter (· ∉ reads)) true .keep
  else Stmt.kept text (readFamilies body) false .keep

def parseStmt (text : Text) : Stmt :=
  let t := trim text
  if "//".toList.isPrefixOf t then Stmt.kept text [] false .keep
  else if "__asm__".toList.isPrefixOf t then Stmt.kept text (readFamilies t) false .opaqueAsm
  else if "*(".toList.isPrefixOf t then Stmt.kept text (readFamilies t) false .keep
  else
    let body := (stripSuffix [';'] t).getD t
    ((parseIncDec? text body <|> parseCompound? text body) <|> parseAssign? text body).getD
      (parseOther text body)

end Dataflow
end Aret
