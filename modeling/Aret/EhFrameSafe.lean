/-
When the parsers of the GNU exception metadata stop the program.

The bytes are taken as they are: `Fits` says of each number that the parsers add
to an address or a position, multiply or slice by that the result is in range.

* `gnuEh_safe_iff` — the programs that are.
-/
import Aret.EhFrame
import Mathlib.Tactic

namespace Aret.EhFrame

open Checked

/-! ### Where reading ends -/

theorem leb_position (l : List UInt8) : ∀ p r sh,
    p ≤ (leb l p r sh).2 ∧ (leb l p r sh).2 ≤ p + l.length ∧
      ∀ v, (leb l p r sh).1 = some v → p < (leb l p r sh).2 := by
  induction l with
  | nil =>
    intro p r sh
    exact ⟨le_rfl, le_rfl, nofun⟩
  | cons b rest ih =>
    intro p r sh
    rw [leb]
    split_ifs
    · exact ⟨by omega, by rw [List.length_cons]; omega, fun _ _ => by omega⟩
    · exact ⟨by omega, by rw [List.length_cons]; omega, nofun⟩
    · obtain ⟨hlo, hhi, -⟩ := ih (p + 1) (r ||| (b.toNat % 128) <<< sh % 2 ^ 64) (sh + 7)
      rw [List.length_cons]
      exact ⟨by omega, by omega, fun _ _ => by omega⟩

theorem uleb_le {d : List UInt8} {p : ℕ} (hp : p ≤ d.length) : (uleb d p).2 ≤ d.length := by
  have h := (leb_position (d.drop p) p 0 0).2.1
  rw [List.length_drop] at h
  show (leb (d.drop p) p 0 0).2 ≤ d.length
  omega

theorem sleb_le {d : List UInt8} {p : ℕ} (hp : p ≤ d.length) : (sleb d p).2 ≤ d.length := by
  rw [show (sleb d p).2 = (uleb d p).2 from rfl]
  exact uleb_le hp

theorem lt_uleb {d : List UInt8} {p v : ℕ} (h : (uleb d p).1 = some v) : p < (uleb d p).2 := by
  obtain ⟨w, hw, -⟩ := Option.map_eq_some_iff.mp h
  exact (leb_position _ p 0 0).2.2 w hw

theorem uleb_inside {d : List UInt8} {p v : ℕ} (h : (uleb d p).1 = some v) : p < d.length := by
  by_contra hout
  have hnil : d.drop p = [] := List.drop_eq_nil_of_le (by omega)
  rw [uleb, hnil] at h
  exact absurd h nofun

theorem sleb_inside {d : List UInt8} {p : ℕ} {v : ℤ} (h : (sleb d p).1 = some v) :
    p < d.length := by
  obtain ⟨w, hw, -⟩ := Option.map_eq_some_iff.mp h
  exact uleb_inside (v := w.1) (by rw [uleb, hw]; rfl)

theorem le32?_inside {d : List UInt8} {p v : ℕ} (h : le32? d p = some v) :
    p + 4 ≤ d.length := by
  have hlen : 4 ≤ (d.drop p).length := by
    rw [le32?] at h
    split at h
    · next heq => rw [heq]; simp
    · exact absurd h nofun
  rw [List.length_drop] at hlen
  omega

theorem le32?_isSome {d : List UInt8} {p : ℕ} (h : p + 4 ≤ d.length) : (le32? d p).isSome := by
  rw [le32?]
  split
  · rfl
  · next hnone =>
    have hlen : 4 ≤ (d.drop p).length := by rw [List.length_drop]; omega
    match hd : d.drop p, hlen with
    | a :: b :: c :: e :: rest, _ => exact absurd hd (hnone a b c e rest)

theorem le16?_inside {d : List UInt8} {p v : ℕ} (h : le16? d p = some v) :
    p + 2 ≤ d.length := by
  have hlen : 2 ≤ (d.drop p).length := by
    rw [le16?] at h
    split at h
    · next heq => rw [heq]; simp
    · exact absurd h nofun
  rw [List.length_drop] at hlen
  omega

theorem fixed_position {v : Option ℤ} {p n : ℕ} {w : ℤ} (hn : 0 < n) {len : ℕ}
    (hin : ∀ w, v = some w → p + n ≤ len) (h : (fixed v p n).1 = some w) :
    p < (fixed v p n).2 ∧ (fixed v p n).2 ≤ len := by
  cases v with
  | none => exact absurd h nofun
  | some v => exact ⟨by rw [fixed]; omega, hin v rfl⟩

theorem readRaw_position {d : List UInt8} {p : ℕ} {enc : UInt8} {v : ℤ}
    (h : (readRaw d p enc).1 = some v) :
    p < (readRaw d p enc).2 ∧ (readRaw d p enc).2 ≤ d.length := by
  have hfour : ∀ {f : ℕ → ℤ} (w : ℤ), (le32? d p).map f = some w → p + 4 ≤ d.length := by
    intro f w hmap
    obtain ⟨u, hu, -⟩ := Option.map_eq_some_iff.mp hmap
    exact le32?_inside hu
  rw [readRaw] at h ⊢
  by_cases h₁ : enc &&& 0x0f = 0x00 ∨ enc &&& 0x0f = 0x03
  · rw [if_pos h₁] at h ⊢
    exact fixed_position (by omega) hfour h
  rw [if_neg h₁] at h ⊢
  by_cases h₂ : enc &&& 0x0f = 0x0b
  · rw [if_pos h₂] at h ⊢
    exact fixed_position (by omega) hfour h
  rw [if_neg h₂] at h ⊢
  by_cases h₃ : enc &&& 0x0f = 0x02
  · rw [if_pos h₃] at h ⊢
    refine fixed_position (by omega) (fun w hw => ?_) h
    obtain ⟨u, hu, -⟩ := Option.map_eq_some_iff.mp hw
    exact le16?_inside hu
  rw [if_neg h₃] at h ⊢
  by_cases h₄ : enc &&& 0x0f = 0x01
  · rw [if_pos h₄] at h ⊢
    obtain ⟨w, hw, -⟩ := Option.map_eq_some_iff.mp h
    exact ⟨lt_uleb hw, uleb_le (Nat.le_of_lt (uleb_inside hw))⟩
  rw [if_neg h₄] at h ⊢
  by_cases h₅ : enc &&& 0x0f = 0x09
  · rw [if_pos h₅] at h ⊢
    obtain ⟨w, hw, -⟩ := Option.map_eq_some_iff.mp h
    exact ⟨(leb_position _ p 0 0).2.2 w hw, sleb_le (Nat.le_of_lt (sleb_inside h))⟩
  · rw [if_neg h₅] at h
    exact absurd h nofun

theorem readEncoded_position {d : List UInt8} {p pc v : ℕ} {enc : UInt8}
    (h : (readEncoded d p enc pc).1 = some v) :
    p < (readEncoded d p enc pc).2 ∧ (readEncoded d p enc pc).2 ≤ d.length := by
  rw [readEncoded] at h ⊢
  by_cases hne : enc = peOmit
  · rw [if_pos hne] at h
    exact absurd h nofun
  · rw [if_neg hne] at h ⊢
    obtain ⟨raw, hraw, -⟩ := Option.bind_eq_some_iff.mp h
    exact readRaw_position hraw

theorem safe_vaof {m : Memory} {p : ℕ} (hp : p ≤ m.data.length) : (vaof m p).Safe := by
  have hfits := m.fits
  rw [vaof, addU64, safe_provided]
  omega

/-! ### The header -/

theorem safe_landingBase (m : Memory) (pcStart : ℕ) : (landingBase m pcStart).Safe := by
  rw [landingBase, safe_bind]
  refine ⟨safe_lift _, fun enc henc => ?_⟩
  split_ifs
  · exact safe_pure _
  · have hlen : 1 ≤ m.data.length := (List.getElem?_eq_some_iff.mp (yields_lift.mp henc)).1
    simp [safe_vaof hlen]

def TypeTableFits (m : Memory) (p : ℕ) : Prop :=
  ∀ enc off, m.data[p]? = some enc → enc ≠ peOmit → (uleb m.data (p + 1)).1 = some off →
    m.address + (uleb m.data (p + 1)).2 + off < 2 ^ 64

theorem safe_typeTable {m : Memory} {p : ℕ} : (typeTable m p).Safe ↔ TypeTableFits m p := by
  have hva : ∀ off, (uleb m.data (p + 1)).1 = some off →
      m.address + (uleb m.data (p + 1)).2 < 2 ^ 64 := by
    intro off hoff
    have hle := uleb_le (Nat.le_of_lt (uleb_inside hoff))
    have hfits := m.fits
    omega
  rw [typeTable, safe_bind]
  simp only [safe_lift, true_and, yields_lift]
  constructor
  · intro h enc off henc hne hoff
    have hsafe := h enc henc
    rw [if_neg hne] at hsafe
    simp only [safe_bind, safe_lift, true_and, yields_lift, vaof, addU64, safe_provided,
      yields_provided] at hsafe
    exact ((hsafe off hoff).2 _ ⟨hva off hoff, rfl⟩).1
  · intro h enc henc
    split_ifs with hne
    · exact safe_pure _
    · simp only [safe_bind, safe_lift, true_and, yields_lift, vaof, addU64, safe_provided,
        yields_provided, safe_pure]
      rintro off hoff
      refine ⟨hva off hoff, ?_⟩
      rintro va ⟨-, rfl⟩
      exact ⟨h enc off henc hne hoff, fun _ _ => trivial⟩

def SiteTableFits (m : Memory) (p : ℕ) : Prop :=
  ∀ len, p < m.data.length → (uleb m.data (p + 1)).1 = some len →
    (uleb m.data (p + 1)).2 + len < 2 ^ 64

theorem safe_siteTable {m : Memory} {p : ℕ} : (siteTable m p).Safe ↔ SiteTableFits m p := by
  rw [siteTable]
  simp only [safe_bind, safe_lift, true_and, yields_lift, addU64, safe_provided, yields_provided]
  constructor
  · intro h len hp hlen
    exact (h _ (List.getElem?_eq_getElem hp) len hlen).1
  · intro h enc henc len hlen
    refine ⟨h len (List.getElem?_eq_some_iff.mp henc).1 hlen, fun stop _ => ?_⟩
    split_ifs
    · exact safe_lift _
    · exact safe_pure _

/-! ### Actions -/

theorem toI64_range (v : ℕ) : -2 ^ 63 ≤ toI64 v ∧ toI64 v < 2 ^ 63 := by
  have hlo := Int.le_bmod (x := (v : ℤ)) (m := 2 ^ 64) (by norm_num)
  have hhi := Int.bmod_lt (x := (v : ℤ)) (m := 2 ^ 64) (by norm_num)
  have h : toI64 v = (v : ℤ).bmod (2 ^ 64) := rfl
  constructor
  · rw [h]
    omega
  · rw [h]
    omega

theorem sleb_range {d : List UInt8} {p : ℕ} {v : ℤ} (h : (sleb d p).1 = some v) :
    -2 ^ 63 ≤ v ∧ v < 2 ^ 63 := by
  obtain ⟨w, -, rfl⟩ := Option.map_eq_some_iff.mp h
  exact toI64_range _

theorem action?_range {d : List UInt8} {ap disp : ℕ} {filter next : ℤ}
    (h : action? d ap = some (filter, disp, next)) : -2 ^ 63 ≤ next := by
  obtain ⟨f, -, hf⟩ := Option.bind_eq_some_iff.mp h
  obtain ⟨n, hn, heq⟩ := Option.map_eq_some_iff.mp hf
  obtain ⟨-, -, rfl⟩ : f = filter ∧ _ = disp ∧ n = next := by simpa using heq
  exact (sleb_range hn).1

theorem safe_readType {t : Tables} {readU32 : ℕ → Option ℕ} {idx : ℕ} :
    (readType t readU32 idx).Safe ↔
      (idx ≠ 0 → t.ttypeBase ≠ 0 → fourByte t.ttypeEnc = true → idx * 4 < 2 ^ 64) := by
  rw [readType]
  split_ifs with h₁ h₂
  · simp only [safe_pure, true_iff]
    intro hidx hbase
    exact absurd h₁ (by simp [hidx, hbase])
  · simp [h₂]
  · obtain ⟨hidx, hbase⟩ := not_or.mp h₁
    rw [Bool.not_eq_false] at h₂
    simp only [safe_bind, mulU64, safe_provided, safe_pure, implies_true, and_true]
    exact ⟨fun h _ _ _ => h, fun h => h hidx hbase h₂⟩

theorem yields_of_safe_readType {t : Tables} {readU32 : ℕ → Option ℕ} {idx : ℕ}
    (h : (readType t readU32 idx).Safe) : ∃ v, (readType t readU32 idx).Yields v := by
  rw [readType] at h ⊢
  split_ifs at h ⊢
  · exact ⟨_, rfl⟩
  · exact ⟨_, rfl⟩
  · simp only [safe_bind, mulU64, safe_provided] at h
    exact ⟨_, yields_bind.mpr ⟨_, yields_provided.mpr ⟨h.1, rfl⟩, rfl⟩⟩

theorem safe_catchOf {t : Tables} {readU32 : ℕ → Option ℕ} {filter : ℤ} :
    (catchOf t readU32 filter).Safe ↔ (0 < filter → t.ttypeBase ≠ 0 →
      fourByte t.ttypeEnc = true → filter.toNat * 4 < 2 ^ 64) := by
  rw [catchOf]
  split_ifs with hpos
  · have hne : filter.toNat ≠ 0 := by omega
    simp only [safe_bind, safe_pure, implies_true, and_true, safe_readType]
    exact ⟨fun h _ => h hne, fun h _ => h hpos⟩
  · simp [hpos]

theorem yields_of_safe_catchOf {t : Tables} {readU32 : ℕ → Option ℕ} {filter : ℤ}
    (h : (catchOf t readU32 filter).Safe) : ∃ cs, (catchOf t readU32 filter).Yields cs := by
  rw [catchOf] at h ⊢
  split_ifs at h ⊢
  · obtain ⟨v, hv⟩ := yields_of_safe_readType (safe_bind.mp h).1
    exact ⟨_, yields_bind.mpr ⟨v, hv, rfl⟩⟩
  · exact ⟨_, rfl⟩

/-- The numbers of an action record stay in range: the index of its type entry, scaled, and the
position that its displacement leads to. -/
structure ActionFits (d : List UInt8) (t : Tables) (ap : ℕ) : Prop where
  index : ∀ filter disp next, action? d ap = some (filter, disp, next) → 0 < filter →
    t.ttypeBase ≠ 0 → fourByte t.ttypeEnc = true → filter.toNat * 4 < 2 ^ 64
  next : ∀ filter disp next, action? d ap = some (filter, disp, next) → next ≠ 0 →
    disp + next < 2 ^ 63

/-- The actions that follow one another in a chain, `k` steps apart. -/
inductive Chain (d : List UInt8) : ℕ → ℕ → ℕ → Prop
  | here (a : ℕ) : Chain d 0 a a
  | next {k a b filter disp next} (h : action? d a = some (filter, disp, next)) (hne : next ≠ 0)
      (hin : toU64 (disp + next) < d.length) (hc : Chain d k (toU64 (disp + next)) b) :
      Chain d (k + 1) a b

section

variable (d : List UInt8) (t : Tables) (readU32 : ℕ → Option ℕ)

theorem safe_catchesFrom_succ (k ap : ℕ) :
    (catchesFrom d t readU32 (k + 1) ap).Safe ↔
      ActionFits d t ap ∧ ∀ filter disp next, action? d ap = some (filter, disp, next) →
        next ≠ 0 → toU64 (disp + next) < d.length →
        (catchesFrom d t readU32 k (toU64 (disp + next))).Safe := by
  rw [catchesFrom]
  simp only [safe_bind, safe_lift, true_and, yields_lift]
  constructor
  · intro h
    have hstep : ∀ filter disp next, action? d ap = some (filter, disp, next) → next ≠ 0 →
        disp + next < 2 ^ 63 ∧ (toU64 (disp + next) < d.length →
          (catchesFrom d t readU32 k (toU64 (disp + next))).Safe) := by
      intro filter disp next hact hne
      obtain ⟨hfirst, hrest⟩ := h _ hact
      obtain ⟨cs, hcs⟩ := yields_of_safe_catchOf hfirst
      have hafter := hrest cs hcs
      rw [if_neg hne] at hafter
      simp only [safe_bind, addI64, safe_provided, yields_provided] at hafter
      refine ⟨hafter.1.2, fun hin => ?_⟩
      have hgo := hafter.2 _ ⟨hafter.1, rfl⟩
      rw [if_neg (by omega)] at hgo
      exact (safe_bind.mp hgo).1
    refine ⟨⟨fun filter disp next hact => safe_catchOf.mp (h _ hact).1,
      fun filter disp next hact hne => (hstep _ _ _ hact hne).1⟩,
      fun filter disp next hact hne => (hstep _ _ _ hact hne).2⟩
  · rintro ⟨hfits, hgo⟩ ⟨filter, disp, next⟩ hact
    refine ⟨safe_catchOf.mpr (hfits.index _ _ _ hact), fun cs _ => ?_⟩
    split_ifs with hne
    · exact safe_pure _
    · simp only [safe_bind, addI64, safe_provided, yields_provided]
      have hlo := action?_range hact
      have hhi := hfits.next _ _ _ hact hne
      refine ⟨⟨by omega, hhi⟩, ?_⟩
      rintro _ ⟨-, rfl⟩
      split_ifs with hout
      · exact safe_pure _
      · simp only [safe_bind, safe_pure, implies_true, and_true]
        exact hgo _ _ _ hact hne (by omega)

theorem safe_catchesFrom (k : ℕ) : ∀ ap, (catchesFrom d t readU32 k ap).Safe ↔
    ∀ j b, j < k → Chain d j ap b → ActionFits d t b := by
  induction k with
  | zero =>
    intro ap
    exact iff_of_true (safe_pure _) (fun j b hj => absurd hj (Nat.not_lt_zero j))
  | succ k ih =>
    intro ap
    rw [safe_catchesFrom_succ]
    constructor
    · rintro ⟨hfits, hgo⟩ j b hj hc
      cases hc with
      | here => exact hfits
      | next h hne hin hc => exact (ih _).mp (hgo _ _ _ h hne hin) _ b (by omega) hc
    · intro h
      refine ⟨h 0 ap (by omega) (.here ap), fun filter disp next hact hne hin => ?_⟩
      exact (ih _).mpr fun j b hj hc => h (j + 1) b (by omega) (.next hact hne hin hc)

end

/-! ### Call sites -/

theorem siteRecord_spec {m : Memory} {enc : UInt8} {p : ℕ} (hp : p ≤ m.data.length) :
    (siteRecord m enc p).Safe ∧ ∀ s, (siteRecord m enc p).Yields s →
      p < s.next ∧ s.next ≤ m.data.length := by
  rw [siteRecord]
  simp only [safe_bind, safe_lift, safe_pure, true_and, yields_lift, yields_bind, yields_pure,
    implies_true, and_true]
  constructor
  · refine ⟨safe_vaof hp, fun va₁ _ v₁ h₁ => ?_⟩
    have hp₁ := readEncoded_position h₁
    refine ⟨safe_vaof hp₁.2, fun va₂ _ v₂ h₂ => ?_⟩
    exact safe_vaof (readEncoded_position h₂).2
  · rintro s ⟨va₁, -, v₁, h₁, va₂, -, v₂, h₂, va₃, -, v₃, h₃, action, h₄, rfl⟩
    have hp₁ := readEncoded_position h₁
    have hp₂ := readEncoded_position h₂
    have hp₃ := readEncoded_position h₃
    have hp₄ := lt_uleb h₄
    exact ⟨by dsimp only; omega, uleb_le hp₃.2⟩

section

variable (m : Memory) (t : Tables) (readU32 : ℕ → Option ℕ)

/-- The positions of the call-site records that the loop comes to: each after one whose chain of
actions can be read. -/
inductive SiteAt : ℕ → ℕ → Prop
  | here (p : ℕ) : SiteAt p p
  | next {p q s cs} (hp : p < t.siteStop) (hs : (siteRecord m t.siteEnc p).Yields s)
      (hc : (siteCatches m t readU32 s.action).Yields cs) (hq : SiteAt s.next q) : SiteAt p q

/-- The action index of a record leads to a position, and the actions of its chain that the walk
reaches stay in range. -/
def SiteFits (p : ℕ) : Prop :=
  ∀ s, p < t.siteStop → (siteRecord m t.siteEnc p).Yields s → s.action ≠ 0 →
    t.siteStop + (s.action - 1) < 2 ^ 64 ∧
      ∀ j b, j < 64 → Chain m.data j (t.siteStop + (s.action - 1)) b → ActionFits m.data t b

theorem safe_siteCatches (action : ℕ) : (siteCatches m t readU32 action).Safe ↔
    (action ≠ 0 → t.siteStop + (action - 1) < 2 ^ 64 ∧
      ∀ j b, j < 64 → Chain m.data j (t.siteStop + (action - 1)) b →
        ActionFits m.data t b) := by
  rw [siteCatches]
  split_ifs with hzero
  · simp [hzero]
  · simp only [safe_bind, addU64, safe_provided, yields_provided, safe_catchesFrom]
    constructor
    · intro h _
      exact ⟨h.1, h.2 _ ⟨h.1, rfl⟩⟩
    · intro h
      refine ⟨(h hzero).1, ?_⟩
      rintro _ ⟨-, rfl⟩
      exact (h hzero).2

theorem safe_callSitesFrom (k : ℕ) :
    ∀ p, m.data.length < p + k → p ≤ m.data.length → ((callSitesFrom m t readU32 k p).Safe ↔
      ∀ q, SiteAt m t readU32 p q → SiteFits m t q) := by
  induction k with
  | zero =>
    intro p hk hp
    omega
  | succ k ih =>
    intro p hk hp
    rw [callSitesFrom]
    split_ifs with hend
    · refine iff_of_true (safe_pure _) fun q hq => ?_
      cases hq with
      | here => exact fun s hlt => absurd hlt (by omega)
      | next hlt => exact absurd hlt (by omega)
    · obtain ⟨hsafe, hnext⟩ := @siteRecord_spec m t.siteEnc p hp
      simp only [safe_bind, safe_pure, implies_true, and_true]
      constructor
      · rintro ⟨-, h⟩ q hq
        cases hq with
        | here => exact fun s _ hs => (safe_siteCatches m t readU32 _).mp (h s hs).1
        | next hlt hs hc hq =>
          obtain ⟨hlo, hhi⟩ := hnext _ hs
          exact (ih _ (by omega) hhi).mp ((h _ hs).2 _ hc) q hq
      · intro h
        refine ⟨hsafe, fun s hs => ⟨?_, fun cs hc => ?_⟩⟩
        · exact (safe_siteCatches m t readU32 _).mpr (h p (.here p) s (by omega) hs)
        · obtain ⟨hlo, hhi⟩ := hnext s hs
          exact (ih _ (by omega) hhi).mpr fun q hq => h q (.next (by omega) hs hc hq)

/-! ### The LSDA -/

/-- The numbers of an LSDA stay in range: where the type table ends, where the call-site table
ends, and what the call sites lead to. -/
structure LsdaFits (pcStart : ℕ) : Prop where
  types : ∀ lp p, (landingBase m pcStart).Yields (lp, p) → TypeTableFits m p
  sites : ∀ lp p enc base q, (landingBase m pcStart).Yields (lp, p) →
    (typeTable m p).Yields (enc, base, q) → SiteTableFits m q
  actions : ∀ lp p enc base q siteEnc first stop, (landingBase m pcStart).Yields (lp, p) →
    (typeTable m p).Yields (enc, base, q) → (siteTable m q).Yields (siteEnc, first, stop) →
    ∀ s, SiteAt m ⟨lp, enc, base, siteEnc, stop⟩ readU32 first s →
      SiteFits m ⟨lp, enc, base, siteEnc, stop⟩ s

end

theorem siteTable_first {m : Memory} {q first stop : ℕ} {enc : UInt8}
    (h : (siteTable m q).Yields (enc, first, stop)) : first ≤ m.data.length := by
  rw [siteTable] at h
  simp only [yields_bind, yields_lift, addU64, yields_provided] at h
  obtain ⟨enc', henc, len, hlen, stop', ⟨-, rfl⟩, h⟩ := h
  split_ifs at h with hlong
  · cases yields_lift.mp h
  · obtain ⟨rfl, rfl, rfl⟩ : enc' = enc ∧ (uleb m.data (q + 1)).2 = first ∧ _ = stop := by
      simpa using yields_pure.mp h
    omega

theorem safe_parseLsda {m : Memory} {readU32 : ℕ → Option ℕ} {pcStart pcEnd : ℕ} :
    (parseLsda m readU32 pcStart pcEnd).Safe ↔ LsdaFits m readU32 pcStart := by
  rw [parseLsda]
  simp only [safe_bind, safe_pure, implies_true, and_true]
  constructor
  · rintro ⟨-, h⟩
    refine ⟨fun lp p h₁ => safe_typeTable.mp (h _ h₁).1, fun lp p enc base q h₁ h₂ => ?_,
      fun lp p enc base q siteEnc first stop h₁ h₂ h₃ => ?_⟩
    · exact safe_siteTable.mp ((h _ h₁).2 _ h₂).1
    · have hfirst := siteTable_first h₃
      exact (safe_callSitesFrom m _ readU32 _ _ (by omega) hfirst).mp
        (((h _ h₁).2 _ h₂).2 _ h₃)
  · intro h
    refine ⟨safe_landingBase m pcStart, ?_⟩
    rintro ⟨lp, p⟩ h₁
    refine ⟨safe_typeTable.mpr (h.types _ _ h₁), ?_⟩
    rintro ⟨enc, base, q⟩ h₂
    refine ⟨safe_siteTable.mpr (h.sites _ _ _ _ _ h₁ h₂), ?_⟩
    rintro ⟨siteEnc, first, stop⟩ h₃
    have hfirst := siteTable_first h₃
    exact (safe_callSitesFrom m _ readU32 _ _ (by omega) hfirst).mpr
      (h.actions _ _ _ _ _ _ _ _ h₁ h₂ h₃)

/-! ### Entries -/

def letterPositions (d : List UInt8) : List UInt8 → ℕ → List (UInt8 × ℕ)
  | [], _ => []
  | l :: letters, p =>
    (l, p) :: letterPositions d letters
      (if l = 0x52 ∨ l = 0x4c then p + 1
      else if l = 0x50 then (readEncoded d (p + 1) (d[p]?.getD 0) 0).2
      else p)

theorem safe_readLetters {m : Memory} (letters : List UInt8) : ∀ p c,
    ((readLetters m letters p c).Safe ↔
      ∀ q, (0x50, q) ∈ letterPositions m.data letters p → m.address + (q + 1) < 2 ^ 64) ∧
      ((readLetters m letters p c).Safe → ∃ c', (readLetters m letters p c).Yields c') := by
  induction letters with
  | nil =>
    intro p c
    exact ⟨iff_of_true (safe_pure _) nofun, fun _ => ⟨c, rfl⟩⟩
  | cons l letters ih =>
    intro p c
    rw [readLetters, letterPositions]
    simp only [List.mem_cons, Prod.mk.injEq]
    by_cases h₁ : l = 0x50
    · subst h₁
      have hpos : ∀ pc, (readEncoded m.data (p + 1) (m.data[p]?.getD 0) pc).2 =
          (readEncoded m.data (p + 1) (m.data[p]?.getD 0) 0).2 := by
        intro pc
        rw [readEncoded, readEncoded]
        split_ifs <;> rfl
      rw [if_neg (by decide), if_pos rfl, if_neg (by decide), if_pos rfl]
      simp only [safe_bind, yields_bind, addU64, safe_provided, yields_provided, hpos, true_and]
      constructor
      · constructor
        · rintro ⟨hva, h⟩ q (rfl | hq)
          · exact hva
          · exact (ih _ _).1.mp (h _ ⟨hva, rfl⟩) q hq
        · intro h
          exact ⟨h p (.inl rfl), fun va _ => (ih _ _).1.mpr fun q hq => h q (.inr hq)⟩
      · rintro ⟨hva, h⟩
        obtain ⟨c', hc'⟩ := (ih _ _).2 (h _ ⟨hva, rfl⟩)
        exact ⟨c', _, ⟨hva, rfl⟩, hc'⟩
    · have hne : ∀ q, ¬(0x50 = l ∧ q = p) := fun q h => h₁ h.1.symm
      simp only [hne, false_or, if_neg h₁]
      by_cases h₂ : l = 0x52
      · rw [if_pos h₂, if_pos (.inl h₂)]
        exact ih _ _
      · rw [if_neg h₂]
        by_cases h₃ : l = 0x4c
        · rw [if_pos h₃, if_pos (.inr h₃)]
          exact ih _ _
        · rw [if_neg h₃, if_neg (by simp [h₂, h₃])]
          exact ih _ _

/-- The text of a CIE starts inside the section or at its end, and the pointers of its augmentation
lie in the address space. -/
def CieFits (m : Memory) (p stop : ℕ) : Prop :=
  p + 5 ≤ m.data.length ∧ ∀ letters, textAt m.data (p + 5) stop = 0x7a :: letters →
    ∀ q, (0x50, q) ∈ letterPositions m.data letters
        (augData m.data (p + 5) (textAt m.data (p + 5) stop)) →
      m.address + (q + 1) < 2 ^ 64

theorem safe_parseCie {m : Memory} {p stop : ℕ} :
    ((parseCie m p stop).Safe ↔ CieFits m p stop) ∧
      ((parseCie m p stop).Safe → ∃ c, (parseCie m p stop).Yields c) := by
  rw [parseCie, CieFits]
  simp only [safe_bind, yields_bind, safe_provided, yields_provided]
  generalize textAt m.data (p + 5) stop = aug
  cases aug with
  | nil =>
    refine ⟨⟨fun h => ⟨h.1, by rintro _ ⟨⟩⟩, fun h => ⟨h.1, ?_⟩⟩, fun h => ⟨_, [], ⟨h.1, rfl⟩, rfl⟩⟩
    rintro _ ⟨-, rfl⟩
    exact safe_pure _
  | cons z letters =>
    obtain ⟨hsafe, hyields⟩ := safe_readLetters (m := m) letters
      (augData m.data (p + 5) (z :: letters)) .absent
    by_cases hz : z = 0x7a
    · subst hz
      constructor
      · constructor
        · rintro ⟨hlen, h⟩
          refine ⟨hlen, ?_⟩
          rintro _ ⟨rfl⟩
          exact hsafe.mp (by simpa using h _ ⟨hlen, rfl⟩)
        · rintro ⟨hlen, h⟩
          refine ⟨hlen, ?_⟩
          rintro _ ⟨-, rfl⟩
          simpa using hsafe.mpr (h _ rfl)
      · rintro ⟨hlen, h⟩
        obtain ⟨c, hc⟩ := hyields (by simpa using h _ ⟨hlen, rfl⟩)
        exact ⟨c, _, ⟨hlen, rfl⟩, by simpa using hc⟩
    · refine ⟨⟨fun h => ⟨h.1, ?_⟩, fun h => ⟨h.1, ?_⟩⟩,
        fun h => ⟨.absent, _, ⟨h.1, rfl⟩, by simp [hz]⟩⟩
      · rintro _ ⟨rfl⟩
        exact absurd rfl hz
      · rintro _ ⟨-, rfl⟩
        simp [hz]

/-- The position of the LSDA pointer of an FDE lies in the address space, and where it leads to an
LSDA, so does the end of the code. -/
def FdeFits (prog : Program) (m : Memory) (c : Cie) (p : ℕ) : Prop :=
  ∀ start range q, (fdeLsda m c p).Yields (some (start, range, q)) →
    m.address + q < 2 ^ 64 ∧ ∀ lsda mem,
      (readEncoded m.data q c.lsdaEnc (m.address + q)).1 = some lsda → lsda ≠ 0 →
      prog.readFrom lsda = some mem →
      start + range < 2 ^ 64 ∧ LsdaFits mem prog.readU32 start

theorem safe_fdeLsda {m : Memory} {c : Cie} {p : ℕ} (hp : p + 4 ≤ m.data.length) :
    (fdeLsda m c p).Safe := by
  have hfits := m.fits
  rw [fdeLsda, safe_bind]
  refine ⟨by simp only [addU64, safe_provided]; omega, fun va _ => ?_⟩
  dsimp only
  split
  · exact safe_pure _
  · split_ifs <;> exact safe_pure _

theorem safe_parseFde {prog : Program} {m : Memory} {c : Cie} {p : ℕ}
    (hp : p + 4 ≤ m.data.length) : (parseFde prog m c p).Safe ↔ FdeFits prog m c p := by
  rw [parseFde, safe_bind]
  simp only [safe_fdeLsda hp, true_and]
  constructor
  · intro h start range q hq
    have hfde := h _ hq
    simp only [safe_bind, addU64, safe_provided, yields_provided, safe_lift, yields_lift,
      true_and] at hfde
    refine ⟨hfde.1, fun lsda mem hlsda hne hmem => ?_⟩
    have hafter := hfde.2 _ ⟨hfde.1, rfl⟩ lsda hlsda
    rw [if_neg hne] at hafter
    simp only [safe_bind, safe_provided, yields_provided, safe_lift, yields_lift,
      true_and] at hafter
    have hgo := hafter mem hmem
    exact ⟨hgo.1, safe_parseLsda.mp (hgo.2 _ ⟨hgo.1, rfl⟩)⟩
  · intro h a ha
    rcases a with _ | ⟨start, range, q⟩
    · exact safe_lift _
    · obtain ⟨hq, hlsda⟩ := h start range q ha
      simp only [safe_bind, addU64, safe_provided, yields_provided, safe_lift, yields_lift,
        true_and]
      refine ⟨hq, ?_⟩
      rintro _ ⟨-, rfl⟩ lsda hread
      split_ifs with hzero
      · exact safe_lift _
      · simp only [safe_bind, safe_provided, yields_provided, safe_lift, yields_lift, true_and]
        intro mem hmem
        obtain ⟨hend, hfits⟩ := hlsda lsda mem hread hzero hmem
        refine ⟨hend, ?_⟩
        rintro _ ⟨-, rfl⟩
        exact safe_parseLsda.mpr hfits

/-- The positions of the entries that the loop comes to, by their lengths. -/
inductive EntryAt (d : List UInt8) : ℕ → ℕ → Prop
  | here (off : ℕ) : EntryAt d off off
  | next {off len b} (h : entryLength? d off = some len) (hb : EntryAt d (off + 4 + len) b) :
      EntryAt d off b

namespace EntryAt

variable {d : List UInt8} {a b c len : ℕ}

theorem le (h : EntryAt d a b) : a ≤ b := by
  induction h with
  | here => exact le_rfl
  | next _ _ ih => omega

theorem snoc (h : EntryAt d a b) (hlen : entryLength? d b = some len) :
    EntryAt d a (b + 4 + len) := by
  induction h with
  | here => exact .next hlen (.here _)
  | next h _ ih => exact .next h (ih hlen)

theorem le_or_end (ha : EntryAt d a b) (hc : EntryAt d a c) (hlen : entryLength? d b = some len) :
    c ≤ b ∨ b + 4 + len ≤ c := by
  induction ha with
  | here =>
    cases hc with
    | here => exact .inl le_rfl
    | next h hc =>
      obtain rfl := Option.some.inj (hlen.symm.trans h)
      exact .inr hc.le
  | next h hb ih =>
    cases hc with
    | here => exact .inl (EntryAt.next h hb).le
    | next h' hc =>
      obtain rfl := Option.some.inj (h.symm.trans h')
      exact ih hc hlen

end EntryAt

theorem entryLength?_inside {d : List UInt8} {off len : ℕ} (h : entryLength? d off = some len) :
    0 < len ∧ off + 4 + len ≤ d.length := by
  obtain ⟨v, -, hv⟩ := Option.bind_eq_some_iff.mp h
  split_ifs at hv with hbad
  obtain rfl := Option.some.inj hv
  omega

section

variable (prog : Program) (m : Memory)

def CieAt (o : ℕ) (c : Cie) : Prop :=
  ∃ len, EntryAt m.data 0 o ∧ entryLength? m.data o = some len ∧
    le32? m.data (o + 4) = some 0 ∧ (parseCie m (o + 4) (o + 4 + len)).Yields c

/-- What the FDE at `off` goes by: the CIE that lies `id` bytes before its identifier and was read
before it, or the default. -/
def FindsCie (off id : ℕ) (c : Cie) : Prop :=
  (∃ o, o < off ∧ o + id = off + 4 ∧ CieAt m o c) ∨
    (∀ o c, o < off → o + id = off + 4 → ¬CieAt m o c) ∧ c = .absent

/-- An entry has room for its identifier, and what the identifier tells to read is in range. -/
structure EntryFits (off : ℕ) : Prop where
  room : ∀ len, entryLength? m.data off = some len → off + 8 ≤ m.data.length
  cie : ∀ len, entryLength? m.data off = some len → le32? m.data (off + 4) = some 0 →
    CieFits m (off + 4) (off + 4 + len)
  fde : ∀ len id c, entryLength? m.data off = some len → le32? m.data (off + 4) = some id →
    id ≠ 0 → FindsCie m off id c → FdeFits prog m c (off + 4)

def Describes (off : ℕ) (f : GnuEhFunc) : Prop :=
  ∃ len id c, entryLength? m.data off = some len ∧ le32? m.data (off + 4) = some id ∧ id ≠ 0 ∧
    FindsCie m off id c ∧ (parseFde prog m c (off + 4)).Yields f

variable {m}

theorem CieAt.inj {o : ℕ} {c c' : Cie} (h : CieAt m o c) (h' : CieAt m o c') : c = c' := by
  obtain ⟨len, -, hlen, -, hc⟩ := h
  obtain ⟨len', -, hlen', -, hc'⟩ := h'
  obtain rfl := Option.some.inj (hlen.symm.trans hlen')
  exact hc.inj hc'

/-- The map of the CIEs when the loop has come to `off`. -/
def Filed (m : Memory) (cies : List (ℕ × Cie)) (off : ℕ) : Prop :=
  ∀ o c, (o, c) ∈ cies ↔ o < off ∧ CieAt m o c

theorem Filed.findCie {cies : List (ℕ × Cie)} {off id : ℕ} (h : Filed m cies off) (c : Cie) :
    FindsCie m off id c ↔ findCie cies (off + 4) id = c := by
  rw [EhFrame.findCie]
  cases hfind : cies.find? fun e => e.1 + id == off + 4 with
  | none =>
    have hnone : ∀ o c, o < off → o + id = off + 4 → ¬CieAt m o c := by
      intro o c ho hid hc
      have := List.find?_eq_none.mp hfind _ ((h o c).mpr ⟨ho, hc⟩)
      exact this (by simpa using hid)
    constructor
    · rintro (⟨o, ho, hid, hc⟩ | ⟨-, rfl⟩)
      · exact absurd hc (hnone o c ho hid)
      · rfl
    · rintro rfl
      exact .inr ⟨hnone, rfl⟩
  | some e =>
    obtain ⟨ho, hc⟩ := (h e.1 e.2).mp (List.mem_of_find?_eq_some hfind)
    have hid : e.1 + id = off + 4 := by simpa using List.find?_some hfind
    constructor
    · rintro (⟨o, -, hid', hc'⟩ | ⟨hnone, -⟩)
      · obtain rfl : e.1 = o := by omega
        exact hc.inj hc'
      · exact absurd hc (hnone _ _ ho hid)
    · rintro rfl
      exact .inl ⟨e.1, ho, hid, hc⟩

theorem Filed.next {cies cies' : List (ℕ × Cie)} {off len : ℕ} (h : Filed m cies off)
    (hoff : EntryAt m.data 0 off) (hlen : entryLength? m.data off = some len)
    (hnew : ∀ o c, (o, c) ∈ cies' ↔ (o, c) ∈ cies ∨ o = off ∧ CieAt m off c) :
    Filed m cies' (off + 4 + len) := by
  intro o c
  rw [hnew, h]
  constructor
  · rintro (⟨ho, hc⟩ | ⟨rfl, hc⟩)
    · exact ⟨by omega, hc⟩
    · exact ⟨by omega, hc⟩
  · rintro ⟨ho, hc⟩
    obtain ⟨len', hentry, -⟩ := id hc
    rcases hoff.le_or_end hentry hlen with hle | hend
    · rcases Nat.lt_or_eq_of_le hle with hlt | rfl
      · exact .inl ⟨hlt, hc⟩
      · exact .inr ⟨rfl, hc⟩
    · omega

theorem entryAt_iff {d : List UInt8} {off len o : ℕ} (hlen : entryLength? d off = some len) :
    EntryAt d off o ↔ o = off ∨ EntryAt d (off + 4 + len) o := by
  constructor
  · intro ho
    cases ho with
    | here => exact .inl rfl
    | next h ho => exact .inr (Option.some.inj (hlen.symm.trans h) ▸ ho)
  · rintro (rfl | ho)
    · exact .here _
    · exact .next hlen ho

variable (m)

/-- The loop from `off` on is safe where the entries there fit, and gives what they describe. -/
structure EntriesSpec (run : Checked (List GnuEhFunc)) (off : ℕ) : Prop where
  safe_iff : run.Safe ↔ ∀ o, EntryAt m.data off o → EntryFits prog m o
  yields : run.Safe → ∃ fs, run.Yields fs ∧
    ∀ f, f ∈ fs ↔ ∃ o, EntryAt m.data off o ∧ Describes prog m o f

variable {m} {cies : List (ℕ × Cie)} {off len : ℕ}

theorem EntriesSpec.cie {k : ℕ} (hlen : entryLength? m.data off = some len)
    (hid : le32? m.data (off + 4) = some 0)
    (ih : ∀ c, (parseCie m (off + 4) (off + 4 + len)).Yields c →
      EntriesSpec prog m (entriesFrom prog m k ((off, c) :: cies) (off + 4 + len))
        (off + 4 + len)) :
    EntriesSpec prog m (do
      let c ← parseCie m (off + 4) (off + 4 + len)
      entriesFrom prog m k ((off, c) :: cies) (off + 4 + len)) off := by
  have hroom := le32?_inside hid
  have hfits : EntryFits prog m off ↔ CieFits m (off + 4) (off + 4 + len) := by
    constructor
    · intro h
      exact h.cie len hlen hid
    · intro h
      refine ⟨fun _ _ => by omega, fun len' hlen' _ => ?_, fun _ id _ _ hid' hne => ?_⟩
      · exact Option.some.inj (hlen.symm.trans hlen') ▸ h
      · exact absurd (Option.some.inj (hid.symm.trans hid')).symm hne
  have hnone : ∀ f, ¬Describes prog m off f := by
    rintro f ⟨_, id, _, _, hid', hne, -⟩
    exact hne (Option.some.inj (hid.symm.trans hid')).symm
  constructor
  · rw [safe_bind, safe_parseCie.1, ← hfits]
    constructor
    · rintro ⟨hcie, h⟩ o ho
      rcases (entryAt_iff hlen).mp ho with rfl | ho
      · exact hcie
      · obtain ⟨c, hc⟩ := safe_parseCie.2 (safe_parseCie.1.mpr (hfits.mp hcie))
        exact (ih c hc).safe_iff.mp (h c hc) o ho
    · intro h
      refine ⟨h off (.here _), fun c hc => ?_⟩
      exact (ih c hc).safe_iff.mpr fun o ho => h o ((entryAt_iff hlen).mpr (.inr ho))
  · intro hsafe
    obtain ⟨hcie, h⟩ := safe_bind.mp hsafe
    obtain ⟨c, hc⟩ := safe_parseCie.2 hcie
    obtain ⟨fs, hfs, hmem⟩ := (ih c hc).yields (h c hc)
    refine ⟨fs, yields_bind.mpr ⟨c, hc, hfs⟩, fun f => (hmem f).trans ?_⟩
    constructor
    · rintro ⟨o, ho, hf⟩
      exact ⟨o, (entryAt_iff hlen).mpr (.inr ho), hf⟩
    · rintro ⟨o, ho, hf⟩
      rcases (entryAt_iff hlen).mp ho with rfl | ho
      · exact absurd hf (hnone f)
      · exact ⟨o, ho, hf⟩

theorem EntriesSpec.fde {k id : ℕ} (hfiled : Filed m cies off)
    (hlen : entryLength? m.data off = some len) (hid : le32? m.data (off + 4) = some id)
    (hne : id ≠ 0)
    (ih : EntriesSpec prog m (entriesFrom prog m k cies (off + 4 + len)) (off + 4 + len)) :
    EntriesSpec prog m (do
      let f ← attempt (parseFde prog m (findCie cies (off + 4) id) (off + 4))
      let rest ← entriesFrom prog m k cies (off + 4 + len)
      pure (f.toList ++ rest)) off := by
  have hroom := le32?_inside hid
  have hsafe := @safe_parseFde prog _ (findCie cies (off + 4) id) _ hroom
  have hfits : EntryFits prog m off ↔
      FdeFits prog m (findCie cies (off + 4) id) (off + 4) := by
    constructor
    · intro h
      exact h.fde len id _ hlen hid hne ((hfiled.findCie _).mpr rfl)
    · intro h
      refine ⟨fun _ _ => by omega, fun len' _ hid' => ?_, fun len' id' c _ hid' _ hc => ?_⟩
      · exact absurd (Option.some.inj (hid.symm.trans hid')) hne
      · obtain rfl := Option.some.inj (hid.symm.trans hid')
        exact (hfiled.findCie c).mp hc ▸ h
  have hdescribes : ∀ f, Describes prog m off f ↔
      (parseFde prog m (findCie cies (off + 4) id) (off + 4)).Yields f := by
    intro f
    constructor
    · rintro ⟨len', id', c, -, hid', -, hc, hf⟩
      obtain rfl := Option.some.inj (hid.symm.trans hid')
      exact (hfiled.findCie c).mp hc ▸ hf
    · intro hf
      exact ⟨len, id, _, hlen, hid, hne, (hfiled.findCie _).mpr rfl, hf⟩
  constructor
  · simp only [safe_bind, safe_attempt, safe_pure, implies_true, and_true, yields_attempt]
    rw [hsafe, ← hfits]
    constructor
    · rintro ⟨hfde, h⟩ o ho
      rcases (entryAt_iff hlen).mp ho with rfl | ho
      · exact hfde
      · obtain ⟨f, hf⟩ := hsafe.mpr (hfits.mp hfde)
        exact ih.safe_iff.mp (h f hf) o ho
    · intro h
      refine ⟨h off (.here _), fun _ _ => ?_⟩
      exact ih.safe_iff.mpr fun o ho => h o ((entryAt_iff hlen).mpr (.inr ho))
  · intro hall
    obtain ⟨hfde, hrest⟩ := safe_bind.mp hall
    obtain ⟨g, hg⟩ := safe_attempt.mp hfde
    obtain ⟨fs, hfs, hmem⟩ := ih.yields (safe_bind.mp (hrest g (yields_attempt.mpr hg))).1
    refine ⟨g.toList ++ fs, yields_bind.mpr ⟨g, yields_attempt.mpr hg,
      yields_bind.mpr ⟨fs, hfs, rfl⟩⟩, fun f => ?_⟩
    have hg' : f ∈ g.toList ↔ Describes prog m off f := by
      rw [hdescribes, Yields, hg, Option.mem_toList]
      exact ⟨fun h => congrArg _ h, Except.ok.inj⟩
    rw [List.mem_append, hg', hmem]
    constructor
    · rintro (hf | ⟨o, ho, hf⟩)
      · exact ⟨off, .here _, hf⟩
      · exact ⟨o, (entryAt_iff hlen).mpr (.inr ho), hf⟩
    · rintro ⟨o, ho, hf⟩
      rcases (entryAt_iff hlen).mp ho with rfl | ho
      · exact .inl hf
      · exact .inr ⟨o, ho, hf⟩

theorem entriesFrom_spec (k : ℕ) : ∀ cies off, m.data.length < off + k → off ≤ m.data.length →
    EntryAt m.data 0 off → Filed m cies off →
    EntriesSpec prog m (entriesFrom prog m k cies off) off := by
  induction k with
  | zero =>
    intro cies off hk hoff
    omega
  | succ k ih =>
    intro cies off hk hoff hentry hfiled
    rw [entriesFrom]
    cases hlen : entryLength? m.data off with
    | none =>
      have honly : ∀ o, EntryAt m.data off o → o = off := by
        intro o ho
        cases ho with
        | here => rfl
        | next h => exact absurd (hlen.symm.trans h) nofun
      have hno : ∀ {P : Prop} {len}, entryLength? m.data off = some len → P :=
        fun h => absurd (hlen.symm.trans h) nofun
      refine ⟨iff_of_true (safe_pure _) fun o ho => ?_, fun _ => ⟨[], rfl, fun f => ?_⟩⟩
      · obtain rfl := honly o ho
        exact ⟨fun _ h => hno h, fun _ h => hno h, fun _ _ _ h => hno h⟩
      · refine iff_of_false List.not_mem_nil ?_
        rintro ⟨o, ho, len, -, -, h, -⟩
        obtain rfl := honly o ho
        exact hno h
    | some len =>
      obtain ⟨hpos, hin⟩ := entryLength?_inside hlen
      dsimp only
      rw [slice32]
      cases hid : le32? m.data (off + 4) with
      | none =>
        have hunsafe : ¬(fault .bounds : Checked ℕ).Safe := not_safe_fault _
        refine ⟨iff_of_false (fun h => hunsafe (safe_bind.mp h).1) fun h => ?_,
          fun h => absurd (safe_bind.mp h).1 hunsafe⟩
        have hroom := (h off (.here _)).room len hlen
        have hsome := le32?_isSome (d := m.data) (p := off + 4) (by omega)
        rw [hid] at hsome
        exact absurd hsome nofun
      | some v =>
        dsimp only
        rw [pure_bind]
        by_cases hzero : v = 0
        · subst hzero
          rw [if_pos rfl]
          refine EntriesSpec.cie prog hlen hid fun c hc => ?_
          have hcie : CieAt m off c := ⟨len, hentry, hlen, hid, hc⟩
          refine ih _ _ (by omega) hin (hentry.snoc hlen) (hfiled.next hentry hlen fun o c' => ?_)
          rw [List.mem_cons, Prod.mk.injEq, or_comm]
          refine or_congr_right (and_congr_right fun _ => ?_)
          exact ⟨fun h => h ▸ hcie, fun h => h.inj hcie⟩
        · rw [if_neg hzero]
          refine EntriesSpec.fde prog hfiled hlen hid hzero ?_
          refine ih _ _ (by omega) hin (hentry.snoc hlen) (hfiled.next hentry hlen fun o c' => ?_)
          refine (or_iff_left ?_).symm
          rintro ⟨-, len', -, -, hid', -⟩
          exact hzero (Option.some.inj (hid.symm.trans hid'))

end

/-! ### Main results -/

/-- The entries of `.eh_frame` fit. -/
def Program.Fits (prog : Program) : Prop :=
  ∀ sec, prog.ehFrame = some sec → ∀ o, EntryAt sec.data 0 o → EntryFits prog sec.toMemory o

/-- The parsers stop the program on no input but those with a number out of range; else the result
is what the entries that parse describe, and the others are skipped. -/
theorem gnuEh_safe_iff (prog : Program) (m : Memory) (readU32 : ℕ → Option ℕ) (pcStart pcEnd : ℕ) :
    ((gnuEhEntries prog).Safe ↔ prog.Fits) ∧
      ((gnuEhEntries prog).Safe → ∃ fs, (gnuEhEntries prog).Yields fs ∧ ∀ f, f ∈ fs ↔
        ∃ sec o, prog.ehFrame = some sec ∧ EntryAt sec.data 0 o ∧
          Describes prog sec.toMemory o f) ∧
      ((parseLsda m readU32 pcStart pcEnd).Safe ↔ LsdaFits m readU32 pcStart) := by
  rw [← and_assoc]
  refine ⟨?_, safe_parseLsda⟩
  rw [gnuEhEntries, Program.Fits]
  cases prog.ehFrame with
  | none =>
    refine ⟨iff_of_true (safe_pure _) ?_, fun _ => ⟨[], rfl, fun f => iff_of_false List.not_mem_nil ?_⟩⟩
    · rintro _ ⟨⟩
    · rintro ⟨_, _, ⟨⟩, _⟩
  | some sec =>
    have hfiled : Filed sec.toMemory [] 0 := fun o c =>
      iff_of_false List.not_mem_nil fun h => absurd h.1 (Nat.not_lt_zero o)
    have hspec := entriesFrom_spec prog (sec.data.length + 1) [] 0 (by omega) (Nat.zero_le _)
      (.here 0) hfiled
    refine ⟨hspec.safe_iff.trans ⟨?_, fun h => h sec rfl⟩, fun hsafe => ?_⟩
    · rintro h _ ⟨rfl⟩
      exact h
    · obtain ⟨fs, hfs, hmem⟩ := hspec.yields hsafe
      refine ⟨fs, hfs, fun f => (hmem f).trans ⟨?_, ?_⟩⟩
      · rintro ⟨o, ho, hf⟩
        exact ⟨sec, o, rfl, ho, hf⟩
      · rintro ⟨_, o, ⟨rfl⟩, ho, hf⟩
        exact ⟨o, ho, hf⟩

theorem not_safe_entriesFrom (prog : Program) (m : Memory) (hdata : m.data = [1, 0, 0, 0, 0])
    (k : ℕ) : ¬(entriesFrom prog m (k + 1) [] 0).Safe := by
  have hlen : entryLength? m.data 0 = some 1 := by rw [hdata]; decide
  have hid : le32? m.data (0 + 4) = none := by rw [hdata]; decide
  rw [entriesFrom, hlen]
  intro hsafe
  have hslice : (slice32 m.data (0 + 4)).Safe := (safe_bind.mp hsafe).1
  rw [slice32, hid] at hslice
  exact not_safe_fault _ hslice

/-- An entry of one byte at the end of the section has no room for its identifier. -/
theorem gnuEh_safe_not :
    ¬∀ (data : List UInt8) (h : 0x1000 + data.length < 2 ^ 64) (h' : data.length < 2 ^ 63),
      (gnuEhEntries ⟨[⟨⟨0x1000, data, h, h'⟩, ".eh_frame"⟩]⟩).Safe := by
  intro h
  have hsafe := h [1, 0, 0, 0, 0] (by norm_num) (by norm_num)
  rw [gnuEhEntries, Program.ehFrame, List.find?_cons_of_pos (by simp)] at hsafe
  exact not_safe_entriesFrom _ _ rfl _ hsafe

end Aret.EhFrame
