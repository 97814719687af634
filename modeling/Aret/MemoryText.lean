/-
The texts of the memory store: identifiers, tags and keys as its operations accept them, the
identifiers it mints, and the addresses of its resources.
-/
import Aret.Percent
import Mathlib.Data.List.Sort

namespace Aret.Memory

/-! ### Strings of the language -/

/-- What `str.strip` takes for white space. -/
def isSpace (c : Char) : Bool :=
  let n := c.toNat
  9 ≤ n && n ≤ 13 || 28 ≤ n && n ≤ 32 || n == 0x85 || n == 0xA0 || n == 0x1680 ||
    0x2000 ≤ n && n ≤ 0x200A || n == 0x2028 || n == 0x2029 || n == 0x202F || n == 0x205F ||
    n == 0x3000

def strip (s : String) : String :=
  String.ofList (((s.toList.dropWhile isSpace).reverse.dropWhile isSpace).reverse)

/-- `s.replace(" ", "_")`. -/
def underscored (s : String) : String :=
  String.ofList (s.toList.map fun c => if c = ' ' then '_' else c)

def truthy (s : Option String) : Option String := s.filter (· ≠ "")

/-- `sorted(set(..))`. -/
def sortedSet (l : List String) : List String := l.dedup.insertionSort (· ≤ ·)

/-- One character of the first class, then from `lo` to `hi` of the second. -/
def fullmatch (first rest : Char → Bool) (lo hi : ℕ) (s : String) : Bool :=
  match s.toList with
  | [] => false
  | c :: cs => first c && lo ≤ cs.length && cs.length ≤ hi && cs.all rest

/-- `ID_RE`. -/
def validIdentifier : String → Bool :=
  fullmatch Char.isUpper (fun c => c.isUpper || c.isDigit || c = '_' || c = '-') 1 31

/-- `ROADMAP_VALUE_RE`. -/
def validRoadmapValue : String → Bool :=
  fullmatch Char.isAlphanum (fun c => c.isAlphanum || c = '.' || c = '_' || c = '-') 0 63

def validTag : String → Bool :=
  fullmatch (fun c => c.isUpper || c.isDigit)
    (fun c => c.isUpper || c.isDigit || c = '_' || c = '.' || c = ':' || c = '-') 0 63

def validFrontKey : String → Bool :=
  fullmatch Char.isLower (fun c => c.isLower || c.isDigit || c = '_') 0 63

def validPipelineName : String → Bool :=
  fullmatch Char.isLower (fun c => c.isLower || c.isDigit || c = '_') 1 95

/-! ### Minted identifiers -/

def pad4 (n : ℕ) : List Char :=
  let digits := Nat.toDigits 10 n
  List.replicate (4 - digits.length) '0' ++ digits

/-- `_new_id` with the number that the sequence gives. -/
def mint (stem : String) (n : ℕ) : String := stem ++ "-" ++ String.ofList (pad4 n)

/-! ### Addresses -/

inductive Kind
  | knowledge | component | function | brick | proof | relation | asset | pipeline | front
  deriving DecidableEq

def Kind.word : Kind → String
  | .knowledge => "knowledge"
  | .component => "component"
  | .function => "function"
  | .brick => "brick"
  | .proof => "proof"
  | .relation => "relation"
  | .asset => "asset"
  | .pipeline => "pipeline"
  | .front => "front"

/-- `SCHEMES`, which the Front is not one of. -/
def schemes : List Kind :=
  [.knowledge, .component, .function, .brick, .proof, .relation, .asset, .pipeline]

structure Address where
  resourceType : Kind
  identifier : String
  deriving DecidableEq

/-- What `quote` leaves as it is: letters, digits and `_.-~`, and the `!` that is asked for. -/
def addressSafe (c : Char) : Bool :=
  c.isAlphanum || c = '_' || c = '.' || c = '-' || c = '~' || c = '!'

def Address.canonical (a : Address) : String :=
  if a.resourceType = .front ∧ a.identifier = "current" then "ARET://front/current"
  else "ARET://" ++ a.resourceType.word ++ "/" ++ Percent.quote addressSafe a.identifier

def hasSlash (s : String) : Bool := s.toList.contains '/'

/-- `make_address`: the address, or the text of the error. -/
def makeAddress (k : Kind) (identifier : String) : Except String String :=
  if k = .front ∧ identifier = "current" then .ok "ARET://front/current"
  else if k ∉ schemes then .error "Type de ressource ARET inconnu : front"
  else if identifier = "" ∨ hasSlash identifier = true then
    .error "Identifiant ARET vide ou invalide"
  else .ok (Address.canonical ⟨k, identifier⟩)

/-- `parse_address`; `replace` is what decoding puts in place of ill-formed UTF-8. -/
def parseAddress (replace : List UInt8 → String) (address : String) : Except String Address :=
  let text := address.toList
  if !("ARET://".toList.isPrefixOf text) then
    .error "Adresse invalide : le préfixe ARET:// est requis"
  else
    let rest := text.drop 7
    let type := rest.takeWhile (· ≠ '/')
    match rest.drop type.length with
    | [] => .error "Adresse invalide : une ressource et un identifiant sont requis"
    | _ :: raw =>
      let identifier := Percent.unquote replace (String.ofList raw)
      if type = "front".toList ∧ identifier = "current" then .ok ⟨.front, identifier⟩
      else
        match schemes.find? (fun k => k.word.toList = type) with
        | some k =>
          if identifier = "" ∨ hasSlash identifier = true then
            .error "Adresse ARET inconnue ou non canonique"
          else .ok ⟨k, identifier⟩
        | none => .error "Adresse ARET inconnue ou non canonique"

theorem Address.parse_make (replace : List UInt8 → String) {k : Kind} (hk : k ∈ schemes)
    {identifier : String} (hne : identifier ≠ "") (hs : hasSlash identifier = false) :
    ∃ address, makeAddress k identifier = .ok address ∧
      parseAddress replace address = .ok ⟨k, identifier⟩ := by
  have hfront : k ≠ .front := by
    rintro rfl
    exact absurd hk (by decide)
  have hn : ¬ (identifier = "" ∨ hasSlash identifier = true) := by
    rintro (h | h)
    · exact hne h
    · exact Bool.false_ne_true (hs.symm.trans h)
  refine ⟨Address.canonical ⟨k, identifier⟩, ?_, ?_⟩
  · rw [makeAddress, if_neg (fun h => hfront h.1), if_neg (not_not.mpr hk), if_neg hn]
  · have hq := Percent.unquote_quote addressSafe replace (by decide) identifier
    have htext : (Address.canonical ⟨k, identifier⟩).toList =
        "ARET://".toList ++ (k.word.toList ++ '/' :: (Percent.quote addressSafe identifier).toList) := by
      rw [Address.canonical, if_neg (fun h => hfront h.1)]
      simp only [String.toList_append, List.append_assoc]
      rfl
    -- The name of the type has no slash, so the first one ends it.
    have htake : ∀ l : List Char,
        (k.word.toList ++ '/' :: l).takeWhile (· ≠ '/') = k.word.toList := by
      intro l
      rw [List.takeWhile_append_of_pos]
      · exact (congrArg (k.word.toList ++ ·) (List.takeWhile_cons_of_neg (by decide))).trans
          (List.append_nil _)
      · exact List.all_eq_true.mp (by cases k <;> decide)
    have hfind : schemes.find? (fun k' => k'.word.toList = k.word.toList) = some k := by
      cases k <;> first | exact absurd rfl hfront | decide
    have hword : k.word.toList ≠ "front".toList := by
      cases k <;> first | exact absurd rfl hfront | decide
    have hpre : ("ARET://".toList.isPrefixOf ("ARET://".toList ++
        (k.word.toList ++ '/' :: (Percent.quote addressSafe identifier).toList))) = true :=
      List.isPrefixOf_iff_prefix.mpr (List.prefix_append _ _)
    have hdrop : ("ARET://".toList ++
        (k.word.toList ++ '/' :: (Percent.quote addressSafe identifier).toList)).drop 7 =
        k.word.toList ++ '/' :: (Percent.quote addressSafe identifier).toList := rfl
    rw [parseAddress]
    dsimp only
    rw [htext, hpre, hdrop, htake, List.drop_left]
    dsimp only
    rw [if_neg (show ¬ (!true) = true by decide), String.ofList_toList, hq, hfind, if_neg (fun h => hword h.1)]
    exact if_neg hn

end Aret.Memory
